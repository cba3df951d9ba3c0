import Unminify.Proofs.Grammar.SkeletonParses
import Unminify.Proofs.Printer.SkeletonText

/-!
# Every `else` stays with its `if`

The text that is printed for a skeleton is read as the skeleton with braces (`Program.read_stmtText`), and
that of a program of skeletons as the program of them (`Program.read_text`). The text is written with the
tokens of the skeletons (`writes_print`), in front of which a parser takes one statement for each
(`parses_skeleton`); and a source holds no more tokens than characters, so the grammar is deep enough.
-/

namespace Unminify

open Grammar Character

variable {ss : List Stmt} {text : String}

/-- A byte order mark is a blank, so it does not matter whether it is skipped. -/
theorem Writes.lexes_withoutMark {ts : List Token} (h : Writes text ts) : Lexes (withoutMark text.toList) ts := by
  have hall := h [] [] .nil
  rw [List.append_nil, List.append_nil] at hall
  unfold withoutMark
  split
  next heq =>
    rw [heq] at hall
    exact hall.of_blank (by decide)
  next => exact hall

namespace Program

/-- A text that is written with the tokens of skeletons is read as these with braces. -/
theorem read_of_writes (hss : ∀ s ∈ ss, s.Skeleton) (h : Writes text (ss.flatMap Tree.tokens)) :
    ∃ vs, Program.read text = .ok ⟨.blockOf vs⟩ ∧
      List.Forall₂ (fun v u => v.same u = true) vs (ss.map Tree.brace) := by
  have hlexes := h.lexes_withoutMark
  obtain ⟨before, -, hparse⟩ := exists_run_eq_parse? text
  have hrules (s : Stmt) (hs : s ∈ ss) :
      ParsesAs (grammar (32 * ((withoutMark text.toList).length + 8))) s s.brace := by
    have hle := length_tokens_le hs
    have hlength := hlexes.length_le
    exact fun ts hts => parses_skeleton (hss s hs) (by omega) fun _ => hts
  obtain ⟨script, _, hrun, ⟨vs, hvs, hsame⟩, -⟩ :=
    parses_script hss hrules (State.at (byteLength before) (withoutMark text.toList)) (hlexes.ahead_next _)
  have hscript : parse? text = some script := hparse.trans (congrArg (Option.map Prod.fst) hrun)
  refine ⟨vs, ?_, hsame⟩
  unfold Program.read
  rw [hscript]
  exact congrArg (Program.mk <$> ·) hvs

/-- The text of a program of skeletons is read as these with braces. -/
theorem read_text (hss : ∀ s ∈ ss, s.Skeleton) :
    ∃ vs, Program.read (Program.text ⟨.blockOf ss⟩) = .ok ⟨.blockOf vs⟩ ∧
      List.Forall₂ (fun v u => v.same u = true) vs (ss.map Tree.brace) := by
  refine read_of_writes hss ?_
  rw [Program.text, print_blockOf]
  exact writes_lines (fun s hs => writes_print (hss s hs)) 0

/-- The text of a skeleton is read as the one statement that the skeleton is with braces. -/
theorem read_stmtText {s : Stmt} (h : s.Skeleton) :
    ∃ u, Program.read s.stmtText = .ok ⟨.blockOf [u]⟩ ∧ u.same s.brace = true := by
  have hwrites : Writes s.stmtText ([s].flatMap Tree.tokens) := by
    rw [List.flatMap_singleton]
    exact writes_print h 0
  obtain ⟨vs, hread, hvs⟩ := read_of_writes (List.forall_mem_singleton.mpr h) hwrites
  cases hvs with
  | cons hu hrest =>
    cases hrest
    exact ⟨_, hread, hu⟩

/-- A branch that ends in an `if` through loops and labels, one that does not because a loop is closed by
its test, and one in front of an `else` on the same line. -/
theorem read_stmtText_nestedUse :
    let name (text : String) : Expr := .identExpr (.ident text none)
    let loose : Stmt := .whileStmt (name "b") (.body (.labeled "c" (.body
      (.forStmt .none .none .none (.body (.ifStmt (name "d") (.body .emptyStmt) .none))))))
    let tested : Stmt := .doWhile (name "f") (.body (.ifStmt (name "g") (.body .emptyStmt) .none))
    let s : Stmt := .ifStmt (name "a") (.body loose) (.some (.body
      (.ifStmt (name "e") (.body tested) (.some (.body (.exprStmt (name "h")))))))
    s.Skeleton ∧
      s.stmtText = "if (a) \x7b\n  while (b)\n    c: for (;;)\n      if (d);\n\x7d else if (e)\n" ++
        "  do\n    if (g);\n  while (f);\nelse\n  h;" ∧
      s.brace = .ifStmt (name "a") (.body (.blockStmt (.blockOf [loose]))) (.some (.body
        (.ifStmt (name "e") (.body tested) (.some (.body (.exprStmt (name "h"))))))) ∧
      ∃ u, Program.read s.stmtText = .ok ⟨.blockOf [u]⟩ ∧ u.same s.brace = true := by
  intro name loose tested s
  have hs : s.Skeleton := by
    refine .ifElse (by decide) (.whileStmt (by decide) (.labeled (by decide) (.forStmt (.ifStmt (by decide) .emptyStmt)) nofun)) ?_
    exact .ifElse (by decide) (.doWhile (by decide) (.ifStmt (by decide) .emptyStmt)) (.exprStmt (by decide))
  exact ⟨hs, by decide +kernel, rfl, read_stmtText hs⟩

end Program

end Unminify
