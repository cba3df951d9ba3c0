import Unminify.Proofs.Pass.Sequences

/-!
# What splicing computes

A sequence stands for what its members stand for, in their order, and any other statement for itself
(`Tree.leaves`). Splicing a list puts in place of each member what it stands for (`splice_eq_flatMap`).

The work can be done in place, by a loop that looks at one place of the list after the other
(`spliceInPlace`): a sequence makes room for its members, and its place is looked at again. The list may
grow while the place stays, so neither measures the loop. Each round either takes a sequence apart or
passes a statement that stays; the rounds are counted by the sequences nested in what is not yet passed
and by the statements of the result (`spliceInPlace_append`).

The main statement, `splice_recursive`, puts these together for every list.
-/

namespace Unminify.Tree

/-- The statements that a phrase stands for. -/
def leaves : {c : Category} → Tree c → List Stmt
  | _, .sequence inner => leaves inner
  | _, .stmts items => leaves items
  | _, .cons head tail => leaves head ++ leaves tail
  | .stmt, s => [s]
  | _, _ => []

/-- The number of sequences at the top of a phrase and nested in one another. -/
def nestedSequences : {c : Category} → Tree c → Nat
  | _, .sequence inner => nestedSequences inner + 1
  | _, .stmts items => nestedSequences items
  | _, .cons head tail => nestedSequences head + nestedSequences tail
  | _, _ => 0

/-- The loop that splices a list in place from a place on, if it ends within a number of rounds. A
sequence makes room for its members, and its place is looked at again; other members are passed. -/
def spliceInPlace : Nat → Nat → List Stmt → Option (List Stmt)
  | 0, _, _ => Option.none
  | rounds + 1, place, ss =>
    match ss[place]? with
    | Option.none => Option.some ss
    | Option.some (.sequence inner) =>
      spliceInPlace rounds place (ss.take place ++ inner.statements ++ ss.drop (place + 1))
    | Option.some _ => spliceInPlace rounds (place + 1) ss

variable {s : Stmt} {inner : Block}

/-! ## What statements stand for -/

theorem leaves_ofList (ss : List Stmt) : (ofList ss).leaves = ss.flatMap leaves := by
  induction ss with
  | nil => rfl
  | cons s ss ih => exact congrArg (s.leaves ++ ·) ih

theorem leaves_sequence (inner : Block) : (sequence inner).leaves = inner.statements.flatMap leaves := by
  rw [← leaves_ofList]
  conv_lhs => rw [← blockOf_statements inner]
  rfl

theorem leaves_of_isSequence_eq_false (h : s.isSequence = false) : s.leaves = [s] := by
  cases s with
  | sequence inner => cases h
  | _ => rfl

theorem nestedSequences_append (ss ts : List Stmt) :
    (ofList (ss ++ ts)).nestedSequences = (ofList ss).nestedSequences + (ofList ts).nestedSequences := by
  induction ss with
  | nil => exact (Nat.zero_add _).symm
  | cons s ss ih => exact (congrArg (s.nestedSequences + ·) ih).trans (Nat.add_assoc _ _ _).symm

theorem nestedSequences_cons (s : Stmt) (ss : List Stmt) :
    (ofList (s :: ss)).nestedSequences = s.nestedSequences + (ofList ss).nestedSequences := rfl

theorem nestedSequences_sequence (inner : Block) :
    (sequence inner).nestedSequences = (ofList inner.statements).nestedSequences + 1 := by
  conv_lhs => rw [← blockOf_statements inner]
  rfl

theorem nestedSequences_of_isSequence_eq_false (h : s.isSequence = false) : s.nestedSequences = 0 := by
  cases s with
  | sequence inner => cases h
  | _ => rfl

theorem isSequence_eq_false_iff : s.isSequence = false ↔ ∀ inner, s ≠ sequence inner := by
  cases s with
  | sequence inner => exact iff_of_false nofun fun h => h inner rfl
  | _ => exact iff_of_true rfl nofun

/-! ## The result -/

theorem splice_eq_flatMap (ss : List Stmt) : splice ss = ss.flatMap leaves := by
  induction ss using splice.induct with
  | case1 => rw [splice, List.flatMap_nil]
  | case2 inner rest ih => rw [splice, ih, List.flatMap_append, List.flatMap_cons, leaves_sequence]
  | case3 s rest hne ih =>
    rw [splice.eq_3 _ _ hne, ih, List.flatMap_cons,
      leaves_of_isSequence_eq_false (isSequence_eq_false_iff.mpr hne), List.singleton_append]

theorem splice_append (ss ts : List Stmt) : splice (ss ++ ts) = splice ss ++ splice ts := by
  simp only [splice_eq_flatMap, List.flatMap_append]

/-- The first member is spliced apart from the others. -/
theorem splice_cons (s : Stmt) (ss : List Stmt) :
    splice (s :: ss) = (if s.isSequence then splice (Pass.members s) else [s]) ++ splice ss := by
  rw [splice_eq_flatMap, List.flatMap_cons, ← splice_eq_flatMap]
  cases hs : s.isSequence with
  | false => rw [leaves_of_isSequence_eq_false hs]; rfl
  | true =>
    cases s with
    | sequence inner => rw [leaves_sequence, ← splice_eq_flatMap]; rfl
    | _ => cases hs

/-! ## The loop in place -/

section

variable {rounds : Nat} {passed rest : List Stmt}

/-- A sequence is taken apart without moving on. -/
theorem spliceInPlace_sequence :
    spliceInPlace (rounds + 1) passed.length (passed ++ sequence inner :: rest) =
      spliceInPlace rounds passed.length (passed ++ (inner.statements ++ rest)) := by
  have hdrop : (passed ++ sequence inner :: rest).drop (passed.length + 1) = rest := by
    rw [← List.drop_drop, List.drop_left, List.drop_one, List.tail_cons]
  rw [spliceInPlace, List.getElem?_append_right (Nat.le_refl _), Nat.sub_self]
  simp only [List.getElem?_cons_zero, List.take_left, hdrop, List.append_assoc]

/-- Another statement is passed. -/
theorem spliceInPlace_pass (hs : ∀ inner, s ≠ sequence inner) :
    spliceInPlace (rounds + 1) passed.length (passed ++ s :: rest) =
      spliceInPlace rounds (passed ++ [s]).length ((passed ++ [s]) ++ rest) := by
  rw [spliceInPlace, List.getElem?_append_right (Nat.le_refl _), Nat.sub_self, List.getElem?_cons_zero,
    List.length_append, List.length_singleton, List.append_assoc, List.singleton_append]
  split
  next h => cases h
  next inner h => exact absurd (Option.some.inj h) (hs inner)
  next => rfl

/-- What is passed stays. The loop has a round for each sequence nested in the rest and for each statement
that the rest stands for, and a last one to find the end. -/
theorem spliceInPlace_append (rounds : Nat) (passed rest : List Stmt) :
    spliceInPlace rounds passed.length (passed ++ rest) =
      if (ofList rest).nestedSequences + (splice rest).length < rounds then Option.some (passed ++ splice rest)
      else Option.none := by
  induction rest using splice.induct generalizing rounds passed with
  | case1 =>
    cases rounds with
    | zero => rfl
    | succ rounds =>
      rw [spliceInPlace, List.append_nil, List.getElem?_eq_none (Nat.le_refl _), splice, List.append_nil]
      exact (if_pos (Nat.succ_pos _)).symm
  | case2 inner rest ih =>
    rw [splice, nestedSequences_cons, nestedSequences_sequence]
    cases rounds with
    | zero => rfl
    | succ rounds =>
      rw [spliceInPlace_sequence, ih, nestedSequences_append]
      exact if_congr (by omega) rfl rfl
  | case3 s rest hne ih =>
    rw [splice.eq_3 _ _ hne, nestedSequences_cons, List.length_cons,
      nestedSequences_of_isSequence_eq_false (isSequence_eq_false_iff.mpr hne)]
    cases rounds with
    | zero => rfl
    | succ rounds =>
      rw [spliceInPlace_pass hne, ih, List.append_assoc, List.singleton_append]
      exact if_congr (by omega) rfl rfl

end

/-- Splicing a list puts in place of each member what it stands for. No sequence is left: wherever one
stands, its members are spliced in its place, and each other member is kept there once, as it is. The loop
in place ends with the same list, after a round for each sequence that it takes apart and for each
statement that it passes. -/
theorem splice_recursive (ss : List Stmt) :
    splice ss = ss.flatMap leaves ∧ (∀ s ∈ splice ss, s.isSequence = false) ∧
      (∀ before s after, ss = before ++ s :: after →
        splice ss = splice before ++ (if s.isSequence then splice (Pass.members s) else [s]) ++ splice after) ∧
      ∀ rounds, spliceInPlace rounds 0 ss =
        if (ofList ss).nestedSequences + (splice ss).length < rounds then Option.some (splice ss)
        else Option.none := by
  refine ⟨splice_eq_flatMap ss, isSequence_splice ss, ?_, fun rounds => spliceInPlace_append rounds [] ss⟩
  rintro before s after rfl
  rw [splice_append, splice_cons, List.append_assoc]

end Unminify.Tree
