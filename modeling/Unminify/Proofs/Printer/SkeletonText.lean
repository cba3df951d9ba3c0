import Unminify.Proofs.Grammar.Lexing
import Unminify.Proofs.Printer.Skeleton

/-!
# Skeletons are written with their tokens

The text that is printed for a skeleton holds its tokens in order, with blanks between them and no
comments, at every level of indentation (`writes_print`). Words need something behind them that cannot
continue a name (`Cuts`): a mark, a blank, or the end of a line, which the layout of bodies always gives.
-/

namespace Unminify

open Grammar Character Printer

/-- In front of whatever follows, a text holds some tokens. -/
def Writes (text : String) (ts : List Token) : Prop :=
  ∀ (cs : List Char) (us : List Token), Lexes cs us → Lexes (text.toList ++ cs) (ts ++ us)

/-- A text does not continue a name in front of it. -/
def Cuts (text : String) : Prop := ∃ c cs, text.toList = c :: cs ∧ isNamePart c = false ∧ c ≠ '\\'

variable {text first second : String} {ts us : List Token}

theorem Cuts.append (h : Cuts first) : Cuts (first ++ second) := by
  obtain ⟨c, cs, hcs, hc⟩ := h
  exact ⟨c, cs ++ second.toList, by rw [String.toList_append, hcs, List.cons_append], hc⟩

theorem Cuts.breaks (h : Cuts text) (cs : List Char) : Breaks (text.toList ++ cs) := by
  obtain ⟨c, tail, htext, hc⟩ := h
  rw [htext]
  intro d hd
  obtain rfl := Option.some.inj hd
  exact hc

namespace Writes

theorem nothing : Writes "" [] := fun _ _ h => h

theorem append (h : Writes first ts) (h' : Writes second us) : Writes (first ++ second) (ts ++ us) := by
  intro cs vs hcs
  rw [String.toList_append, List.append_assoc, List.append_assoc]
  exact h _ _ (h' _ _ hcs)

/-- Blanks may stand in front of a text. -/
theorem after (h : Writes first []) (h' : Writes second us) : Writes (first ++ second) us := h.append h'

theorem word (hname : nameAt? first.toList = some (first.toList, [])) (hcuts : Cuts second)
    (h : Writes second us) : Writes (first ++ second) (.word first :: us) := by
  intro cs vs hcs
  have hword := Lexes.word hname (hcuts.breaks cs) (h _ _ hcs)
  rwa [String.ofList_toList, ← List.append_assoc, ← String.toList_append] at hword

theorem blank {c : Char} (hc : isBlank c = true) (htext : text.toList = [c]) : Writes text [] := by
  intro cs us hcs
  rw [htext]
  exact .blank hc hcs

theorem bracket {c : Char} (hc : c ∈ brackets) (htext : text.toList = [c]) : Writes text [.mark text] := by
  intro cs us hcs
  have hmark := Lexes.bracket hc hcs
  rw [← htext, String.ofList_toList] at hmark
  rw [htext]
  exact hmark

end Writes

/-! ## Layout -/

theorem writes_space : Writes " " [] := .blank (by decide) rfl

theorem writes_newline : Writes "\n" [] := .blank (by decide) rfl

theorem writes_indent (level : Nat) : Writes (indent level) [] := by
  induction level with
  | zero => exact .nothing
  | succ level ih =>
    have htwo : Writes "  " [] := writes_space.append writes_space
    rw [indent, List.replicate_succ, String.join_cons]
    exact htwo.after ih

theorem print_blockOf (ss : List Stmt) : (Tree.blockOf ss).print = ss.map fun s => s.print.inline := by
  have hlist : (Tree.ofList ss).print = ss.map Tree.print := by
    induction ss with
    | nil => rfl
    | cons s ss ih => exact congrArg (s.print :: ·) ih
  show (Tree.ofList ss).print.map (·.inline) = _
  rw [hlist, List.map_map]
  rfl

theorem writes_lines {ss : List Stmt} (h : ∀ s ∈ ss, ∀ level, Writes (s.print.inline level) s.tokens)
    (level : Nat) : Writes (lines (ss.map fun s => s.print.inline) level) (ss.flatMap Tree.tokens) := by
  induction ss with
  | nil => exact .nothing
  | cons s ss ih =>
    rw [List.forall_mem_cons] at h
    rw [lines, List.map_cons, List.map_cons, String.join_cons, List.flatMap_cons]
    have hline := (((writes_indent level).after (h.1 level)).append writes_newline).append (ih h.2)
    rwa [List.append_nil] at hline

theorem writes_braced {ss : List Stmt} (h : ∀ s ∈ ss, ∀ level, Writes (s.print.inline level) s.tokens)
    (level : Nat) :
    Writes (braced (ss.map fun s => s.print.inline) level)
      (.mark "\x7b" :: (ss.flatMap Tree.tokens ++ [.mark "\x7d"])) := by
  have hopening : Writes leftBrace [.mark "\x7b"] := .bracket (by decide) rfl
  have hclosing : Writes rightBrace [.mark "\x7d"] := .bracket (by decide) rfl
  rw [braced]
  split
  next hempty =>
    obtain rfl : ss = [] := by simpa using hempty
    exact hopening.append hclosing
  next =>
    have hall := (((hopening.append writes_newline).append (writes_lines h (level + 1))).append
      (writes_indent level)).append hclosing
    rwa [List.append_nil, List.append_nil] at hall

section

variable {s : Stmt} {name : String}

/-- A body is written apart from its header. -/
theorem writes_underHeader (hs : s.Skeleton) (h : ∀ level, Writes (s.print.inline level) s.tokens)
    (level : Nat) :
    Writes ((Tree.body s).print.underHeader level) s.tokens ∧ Cuts ((Tree.body s).print.underHeader level) := by
  have hspace : Cuts " " := ⟨' ', [], rfl, by decide⟩
  have hnewline : Cuts "\n" := ⟨'\n', [], rfl, by decide⟩
  have hsemicolon : Cuts ";" := ⟨';', [], rfl, by decide⟩
  cases hs with
  | emptyStmt => exact ⟨h level, hsemicolon⟩
  | blockStmt _ => exact ⟨writes_space.after (h level), hspace.append⟩
  | _ => exact ⟨(writes_newline.after (writes_indent _)).after (h (level + 1)), hnewline.append.append⟩

/-- A keyword behind a body is written apart from it. -/
theorem followedBy_eq (hs : s.Skeleton) (level : Nat) :
    ∃ gap, Writes gap [] ∧ ∀ keyword, (Tree.body s).print.followedBy keyword level = gap ++ keyword := by
  cases hs with
  | blockStmt _ => exact ⟨" ", writes_space, fun _ => rfl⟩
  | _ => exact ⟨"\n" ++ indent level, writes_newline.after (writes_indent level), fun _ => rfl⟩

/-- A test in parentheses behind a keyword. -/
theorem writes_header (keyword : String) (hkeyword : nameAt? keyword.toList = some (keyword.toList, []))
    (h : IsIdentifier name) (hrest : Writes text ts) :
    Writes (keyword ++ " (" ++ name ++ ")" ++ text)
      (.word keyword :: .mark "(" :: .word name :: .mark ")" :: ts) := by
  have hspace : Cuts " (" := ⟨' ', ['('], rfl, by decide⟩
  have hopening : Writes "(" [.mark "("] := .bracket (by decide) rfl
  have hclosing : Writes ")" [.mark ")"] := .bracket (by decide) rfl
  have htest := Writes.word h.1 (Cuts.append ⟨')', [], rfl, by decide⟩) (hclosing.append hrest)
  simp only [String.append_assoc]
  exact Writes.word hkeyword hspace.append ((writes_space.after hopening).append htest)

/-- The branch of an `else`: an `if` stands on the same line. -/
def elseBranch (s : Stmt) (level : Nat) : String :=
  match s with
  | .ifStmt _ _ _ => " " ++ s.print.inline level
  | _ => (Tree.body s).print.underHeader level

/-- The branch of an `else` is written apart from it. -/
theorem writes_elseBranch (hs : s.Skeleton) (h : ∀ level, Writes (s.print.inline level) s.tokens)
    (level : Nat) : Writes ("else" ++ elseBranch s level) (.word "else" :: s.tokens) := by
  have helse : nameAt? "else".toList = some ("else".toList, []) := by decide
  obtain ⟨hwrites, hcuts⟩ := writes_underHeader hs h level
  cases hs with
  | ifStmt | ifElse =>
    exact .word helse (Cuts.append ⟨' ', [], rfl, by decide⟩) (writes_space.after (h level))
  | _ => exact .word helse hcuts hwrites

end

/-! ## Skeletons -/

/-- A skeleton is written with its tokens at every level of indentation. -/
theorem writes_print {s : Stmt} (h : s.Skeleton) (level : Nat) : Writes (s.print.inline level) s.tokens := by
  have hopening : Writes "(" [.mark "("] := .bracket (by decide) rfl
  have hclosing : Writes ")" [.mark ")"] := .bracket (by decide) rfl
  have hsemicolon : Writes ";" [.mark ";"] := .bracket (by decide) rfl
  induction h generalizing level with
  | @exprStmt name id h =>
    have htext : (Tree.exprStmt (.identExpr (.ident name id))).print.inline level =
        Printer.parenthesized (startsLikeDeclaration name) name ++ ";" := rfl
    rw [htext, Printer.parenthesized]
    simp only [Tree.tokens]
    split
    · have hname := Writes.word h.1 (Cuts.append ⟨')', [], rfl, by decide⟩) (hclosing.append hsemicolon)
      simp only [String.append_assoc]
      exact hopening.append hname
    · exact .word h.1 ⟨';', [], rfl, by decide⟩ hsemicolon
  | emptyStmt => exact hsemicolon
  | @blockStmt ss _ ih =>
    have htext : (Tree.blockStmt (.blockOf ss)).print.inline level = braced (Tree.blockOf ss).print level := rfl
    rw [htext, print_blockOf]
    simp only [Tree.tokens, Tree.tokens_blockOf]
    exact writes_braced ih level
  | ifStmt h hc ih => exact writes_header "if" (by decide) h (writes_underHeader hc ih level).1
  | @ifElse name id consequent alternate h hc ha ihc iha =>
    have htext : (Tree.ifStmt (.identExpr (.ident name id)) (.body consequent)
          (.some (.body alternate))).print.inline level =
        "if (" ++ name ++ ")" ++
          (if (Tree.body consequent).endsInOpenIf then " " ++ braced [consequent.print.inline] level ++ " else"
            else (Tree.body consequent).print.underHeader level ++
              (Tree.body consequent).print.followedBy "else" level) ++ elseBranch alternate level := by
      cases ha <;> rfl
    have hbranch := writes_elseBranch ha iha level
    rw [htext, String.append_assoc]
    refine writes_header "if" (by decide) h ?_
    simp only [Tree.endsInOpenIf_iff, Tree.tokens]
    split
    · have hbraced := writes_braced (List.forall_mem_singleton.mpr ihc) level
      have hspace : " else" = " " ++ "else" := rfl
      rw [List.flatMap_singleton] at hbraced
      rw [hspace]
      simp only [String.append_assoc]
      exact writes_space.after (hbraced.append (writes_space.after hbranch))
    · obtain ⟨gap, hgap, hkeyword⟩ := followedBy_eq hc level
      rw [hkeyword, String.append_assoc, String.append_assoc]
      exact (writes_underHeader hc ihc level).1.append (hgap.after hbranch)
  | whileStmt h hs ih => exact writes_header "while" (by decide) h (writes_underHeader hs ih level).1
  | @doWhile name id s h hs ih =>
    obtain ⟨gap, hgap, hkeyword⟩ := followedBy_eq hs level
    have htext : (Tree.doWhile (.identExpr (.ident name id)) (.body s)).print.inline level =
        "do" ++ (Tree.body s).print.underHeader level ++
          (Tree.body s).print.followedBy "while (" level ++ name ++ ");" := rfl
    have hopen : "while (" = "while" ++ " (" := rfl
    have hclose : ");" = ")" ++ ";" := rfl
    have htest := writes_header "while" (by decide) h hsemicolon
    obtain ⟨hwrites, hcuts⟩ := writes_underHeader hs ih level
    rw [htext, hkeyword, hopen, hclose]
    simp only [String.append_assoc] at htest ⊢
    exact .word (by decide) hcuts.append (hwrites.append (hgap.after htest))
  | @forStmt s hs ih =>
    have htext : (Tree.forStmt .none .none .none (.body s)).print.inline level =
        "for" ++ (" " ++ ("(" ++ (";" ++ (";" ++ (")" ++ (Tree.body s).print.underHeader level))))) := by
      show "for (" ++ "" ++ ";" ++ "" ++ ";" ++ "" ++ ")" ++ _ = _
      simp only [String.append_empty, ← String.append_assoc]
      rfl
    have hclauses := hsemicolon.append (hsemicolon.append (hclosing.append (writes_underHeader hs ih level).1))
    rw [htext]
    exact .word (by decide) (Cuts.append ⟨' ', [], rfl, by decide⟩) (writes_space.after (hopening.append hclauses))
  | @labeled label s h hs _ ih =>
    have htext : (Tree.labeled label (.body s)).print.inline level = label ++ ": " ++ s.print.inline level := rfl
    have hcolon : Writes ":" [.mark ":"] := .bracket (by decide) rfl
    rw [htext, String.append_assoc]
    exact Writes.word h.1 (Cuts.append ⟨':', [' '], rfl, by decide⟩)
      ((hcolon.append writes_space).append (ih level))

end Unminify
