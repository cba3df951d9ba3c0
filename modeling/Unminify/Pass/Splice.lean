import Unminify.Syntax.Tree

/-!
# Splicing sequences

Puts the members of every sequence of a statement list into the list itself. A member may be a
sequence again, so what takes the place of a sequence is looked at once more; the number of list
entries and sequences still to be seen gets smaller at every step.
-/

namespace Unminify.Tree

/-- The number of list entries and sequences at the top of a phrase. -/
def spliceWeight : {c : Category} → Tree c → Nat
  | _, .sequence inner => spliceWeight inner + 1
  | _, .stmts items => spliceWeight items
  | _, .cons head tail => spliceWeight head + spliceWeight tail + 1
  | _, _ => 0

theorem ofList_items {k : Category} (t : Tree k) :
    ∀ (c : Category) (e : k = .list c), ofList (t.items c e) = e ▸ t := by
  induction t with
  | cons h t _ ih =>
    intro c e
    cases e
    exact congrArg (Tree.cons h) (ih _ rfl)
  | nil => intro c e; cases e; rfl
  | _ => intro c e; cases e

theorem ofList_toList {c : Category} (t : Tree (.list c)) : ofList t.toList = t :=
  ofList_items t c rfl

theorem spliceWeight_ofList_append {c : Category} (ss ts : List (Tree c)) :
    (ofList (ss ++ ts)).spliceWeight = (ofList ss).spliceWeight + (ofList ts).spliceWeight := by
  induction ss with
  | nil => simp [ofList, spliceWeight]
  | cons s ss ih => simp only [List.cons_append, ofList, spliceWeight, ih]; omega

/-- A statement list in which no member is a sequence: the members of sequences stand in their
place. -/
def splice (ss : List Stmt) : List Stmt :=
  match ss with
  | [] => []
  | .sequence inner :: rest => splice (inner.statements ++ rest)
  | s :: rest => s :: splice rest
termination_by (ofList ss).spliceWeight
decreasing_by
  · rw [spliceWeight_ofList_append]
    match inner with
    | .stmts items => simp only [statements, ofList_toList, ofList, spliceWeight]; omega
  · simp only [ofList, spliceWeight]; omega

end Unminify.Tree
