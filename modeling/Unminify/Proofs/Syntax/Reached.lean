import Unminify.Pass.Splice
import Unminify.Proofs.Syntax.Sameness

/-!
# What walks reach

The phrases that a walk comes to: the tree itself, and what is reached from its visited parts
(`mem_reached`). `Tree.size` counts them. A dot access keeps its property to itself, so a tree may
have more phrases than are reached; `Everywhere` is about all of them.
-/

namespace Unminify.Tree

/-- The walk that notes every phrase it comes to and changes none. -/
def noting {σ : Type} (note : Phrase → σ → σ) : Hook (StateM σ) := fun c t walk => do
  modify (note ⟨c, t⟩)
  walk ()

/-- The phrases that a walk comes to, from the outside in. -/
def reached {c : Category} (t : Tree c) : List Phrase :=
  ((t.visit (noting fun p ps => ps ++ [p])).run []).2

theorem mem_parts_of_visited {c : Category} {t : Tree c} {p : Phrase} (hp : p ∈ t.visited) :
    p ∈ t.parts := by
  rw [parts_eq]
  exact List.mem_append_left _ hp

theorem related_cons {R : (c : Category) → Tree c → Tree c → Prop} {c : Category} {t u : Tree c}
    {ps qs : List Phrase} :
    Related R (⟨c, t⟩ :: ps) (⟨c, u⟩ :: qs) ↔ R c t u ∧ Related R ps qs :=
  ⟨fun h => by cases h with | cons hr h => exact ⟨hr, h⟩, fun h => .cons h.1 h.2⟩

/-- What a list that begins with a phrase is related to. -/
theorem exists_of_related_cons {R : (c : Category) → Tree c → Tree c → Prop} {c : Category} {t : Tree c}
    {ps us : List Phrase} (h : Related R (⟨c, t⟩ :: ps) us) :
    ∃ u vs, us = ⟨c, u⟩ :: vs ∧ R c t u ∧ Related R ps vs := by
  cases h with
  | cons hr h => exact ⟨_, _, rfl, hr, h⟩

/-- Every member on the right is what some member on the left is related to. -/
theorem Related.exists_of_mem {R : (c : Category) → Tree c → Tree c → Prop} {ps us : List Phrase}
    (h : Related R ps us) {u : Phrase} (hu : u ∈ us) : ∃ t, ⟨u.1, t⟩ ∈ ps ∧ R u.1 t u.2 := by
  induction h with
  | nil => cases hu
  | cons hr _ ih =>
    rcases List.mem_cons.mp hu with rfl | hu
    · exact ⟨_, List.mem_cons_self, hr⟩
    · obtain ⟨t, ht, hr⟩ := ih hu
      exact ⟨t, List.mem_cons_of_mem _ ht, hr⟩

section

variable {σ : Type}

/-- Walking parts one after the other leaves them as they are, if each of them does. -/
theorem run_walkAll_unchanged {c : Category} {f : (c : Category) → Tree c → StateM σ (Tree c)}
    {g : Phrase → σ → σ} {ps : List Phrase} (build : List Phrase → Tree c) (s : σ)
    (h : ∀ p ∈ ps, ∀ s, (f p.1 p.2).run s = (p.2, g p s)) :
    (walkAll f ps build).run s = (build ps, ps.foldl (fun s p => g p s) s) := by
  induction ps generalizing build s with
  | nil => rfl
  | cons p ps ih =>
    rw [walkAll, StateT.run_bind, h p List.mem_cons_self s]
    exact ih _ _ fun q hq => h q (List.mem_cons_of_mem _ hq)

/-- A walk that notes phrases notes a phrase and then what it notes in the visited parts. -/
theorem run_visit_noting {note g : Phrase → σ → σ} {c : Category} {t : Tree c} (s : σ)
    (h : ∀ p ∈ t.visited, ∀ s, (p.2.visit (noting note)).run s = (p.2, g p s)) :
    (t.visit (noting note)).run s = (t, t.visited.foldl (fun s p => g p s) (note ⟨c, t⟩ s)) := by
  show (descend (noting note) t).run (note ⟨c, t⟩ s) = _
  rw [descend_eq]
  refine (run_walkAll_unchanged t.rebuild _ h).trans ?_
  rw [rebuild_visited]

end

private theorem foldl_append (ps qs : List Phrase) :
    ps.foldl (fun s p => s ++ p.2.reached) qs = qs ++ ps.flatMap (·.2.reached) := by
  induction ps generalizing qs with
  | nil => rw [List.foldl_nil, List.flatMap_nil, List.append_nil]
  | cons p ps ih => rw [List.foldl_cons, List.flatMap_cons, ih, List.append_assoc]

theorem run_visit_reached {c : Category} (t : Tree c) (ps : List Phrase) :
    (t.visit (noting fun p ps => ps ++ [p])).run ps = (t, ps ++ t.reached) := by
  induction t using induction_on_parts generalizing ps with
  | step c t ih =>
    have hvisited := fun p (hp : p ∈ t.visited) => ih p (mem_parts_of_visited hp)
    have hrun := fun ps => run_visit_noting (t := t) ps hvisited
    have hreached : t.reached = ⟨c, t⟩ :: t.visited.flatMap (·.2.reached) := by
      rw [reached, hrun, foldl_append, List.nil_append, List.singleton_append]
    rw [hrun, foldl_append, hreached, List.append_assoc, List.singleton_append]

/-- A walk comes to a phrase and then to what it reaches from the visited parts. -/
theorem reached_eq {c : Category} (t : Tree c) :
    t.reached = ⟨c, t⟩ :: t.visited.flatMap (·.2.reached) := by
  rw [reached, run_visit_noting [] fun p _ => run_visit_reached p.2, foldl_append, List.nil_append,
    List.singleton_append]

theorem mem_reached {c : Category} {t : Tree c} {q : Phrase} :
    q ∈ t.reached ↔ q = ⟨c, t⟩ ∨ ∃ p ∈ t.visited, q ∈ p.2.reached := by
  rw [reached_eq, List.mem_cons, List.mem_flatMap]

theorem self_mem_reached {c : Category} (t : Tree c) : ⟨c, t⟩ ∈ t.reached :=
  mem_reached.mpr (.inl rfl)

/-- A condition on what is reached is a condition on the phrase and on what its parts reach. -/
theorem forall_reached {φ : Phrase → Prop} {c : Category} {t : Tree c} :
    (∀ q ∈ t.reached, φ q) ↔ φ ⟨c, t⟩ ∧ ∀ p ∈ t.visited, ∀ q ∈ p.2.reached, φ q := by
  rw [reached_eq, List.forall_mem_cons, List.forall_mem_flatMap]

/-- What is reached from a phrase that is reached. -/
theorem reached_trans {c : Category} {t : Tree c} {q r : Phrase} (hq : q ∈ t.reached)
    (hr : r ∈ q.2.reached) : r ∈ t.reached := by
  induction t using induction_on_parts with
  | step c t ih =>
    rcases mem_reached.mp hq with rfl | ⟨p, hp, hq⟩
    · exact hr
    · exact mem_reached.mpr (.inr ⟨p, hp, ih p (mem_parts_of_visited hp) hq⟩)

theorem mem_reached_of_toList {c : Category} {t : Tree (.list c)} {u : Tree c} (hu : u ∈ t.toList) :
    ⟨c, u⟩ ∈ t.reached := by
  rw [← ofList_toList t]
  generalize t.toList = ts at hu
  induction ts with
  | nil => cases hu
  | cons t ts ih =>
    rcases List.mem_cons.mp hu with rfl | hu
    · exact mem_reached.mpr (.inr ⟨_, List.mem_cons_self, self_mem_reached _⟩)
    · exact mem_reached.mpr (.inr ⟨_, List.mem_cons_of_mem _ List.mem_cons_self, ih hu⟩)

theorem blockOf_statements (b : Block) : blockOf b.statements = b := by
  cases b with
  | stmts items => exact congrArg stmts (ofList_toList items)

theorem mem_reached_of_statements {b : Block} {s : Stmt} (hs : s ∈ b.statements) :
    ⟨.stmt, s⟩ ∈ b.reached := by
  cases b with
  | stmts items =>
    exact mem_reached.mpr (.inr ⟨_, List.mem_cons_self, mem_reached_of_toList hs⟩)

/-! ## Size -/

theorem run_visit_size {c : Category} (t : Tree c) (n : Nat) :
    (t.visit (noting fun _ n => n + 1)).run n = (t, n + t.reached.length) := by
  induction t using induction_on_parts generalizing n with
  | step c t ih =>
    have hfold : ∀ (ps : List Phrase) (n : Nat),
        ps.foldl (fun n p => n + p.2.reached.length) n = n + (ps.flatMap (·.2.reached)).length := by
      intro ps
      induction ps with
      | nil => intro n; rfl
      | cons p ps ih =>
        intro n
        rw [List.foldl_cons, List.flatMap_cons, List.length_append, ih]
        omega
    rw [run_visit_noting n fun p hp => ih p (mem_parts_of_visited hp), hfold, reached_eq t,
      List.length_cons]
    congr 1
    omega

theorem size_eq_length {c : Category} (t : Tree c) : t.size = t.reached.length :=
  (congrArg Prod.snd (run_visit_size t 0)).trans (Nat.zero_add _)

/-- A visited part is smaller than the whole. -/
theorem size_lt_of_visited {c : Category} {t : Tree c} {p : Phrase} (hp : p ∈ t.visited) :
    p.2.size < t.size := by
  obtain ⟨before, after, hvisited⟩ := List.append_of_mem hp
  rw [size_eq_length, size_eq_length, reached_eq t, hvisited, List.flatMap_append, List.flatMap_cons]
  simp only [List.length_cons, List.length_append]
  omega

/-! ## Identifiers and comments -/

/-- Whether a phrase is an identifier or a comment. -/
def isLeaf : {c : Category} → Tree c → Bool
  | .name, _ => true
  | _, .comment _ => true
  | _, _ => false

/-- The text of a comment. -/
def comment? : Phrase → Option String
  | ⟨_, .comment text⟩ => Option.some text
  | _ => Option.none

/-- An identifier. -/
def identifier? : Phrase → Option Name
  | ⟨.name, name⟩ => Option.some name
  | _ => Option.none

/-! ## Conditions on all phrases -/

/-- A condition on every phrase of a tree, reached or not. -/
def Everywhere (φ : Phrase → Prop) {c : Category} (t : Tree c) : Prop := ∀ p ∈ t.phrases, φ p

section

variable {φ : Phrase → Prop}

theorem everywhere_iff {c : Category} {t : Tree c} :
    t.Everywhere φ ↔ φ ⟨c, t⟩ ∧ ∀ p ∈ t.parts, p.2.Everywhere φ := by
  unfold Everywhere
  rw [phrases_eq, List.forall_mem_cons, List.forall_mem_flatMap]

theorem Everywhere.self {c : Category} {t : Tree c} (h : t.Everywhere φ) : φ ⟨c, t⟩ :=
  (everywhere_iff.mp h).1

theorem Everywhere.part {c : Category} {t : Tree c} (h : t.Everywhere φ) {p : Phrase}
    (hp : p ∈ t.parts) : p.2.Everywhere φ :=
  (everywhere_iff.mp h).2 p hp

theorem Everywhere.reached {c : Category} {t : Tree c} (h : t.Everywhere φ) {q : Phrase}
    (hq : q ∈ t.reached) : q.2.Everywhere φ := by
  induction t using induction_on_parts with
  | step c t ih =>
    rcases mem_reached.mp hq with rfl | ⟨p, hp, hq⟩
    · exact h
    · exact ih p (mem_parts_of_visited hp) (h.part (mem_parts_of_visited hp)) hq

/-- The condition holds of a rebuilt phrase when it holds of the form and of the new parts. -/
theorem everywhere_rebuild {c : Category} {t : Tree c} {us : List Phrase}
    (halign : us.map Sigma.fst = t.visited.map Sigma.fst) (ht : t.Everywhere φ)
    (hform : φ ⟨c, t.rebuild us⟩) (hus : ∀ u ∈ us, u.2.Everywhere φ) :
    (t.rebuild us).Everywhere φ := by
  refine everywhere_iff.mpr ⟨hform, fun p hp => ?_⟩
  rw [parts_eq, visited_rebuild halign, unvisited_rebuild, List.mem_append] at hp
  rcases hp with hp | hp
  · exact hus p hp
  · exact ht.part (parts_eq t ▸ List.mem_append_right _ hp)

/-- A condition that lists satisfy anyway is a condition on their members. -/
theorem everywhere_ofList_iff {c : Category} (hφ : ∀ t : Tree (.list c), φ ⟨_, t⟩)
    {ts : List (Tree c)} : (ofList ts).Everywhere φ ↔ ∀ t ∈ ts, t.Everywhere φ := by
  induction ts with
  | nil => exact ⟨fun _ => nofun, fun _ => everywhere_iff.mpr ⟨hφ _, nofun⟩⟩
  | cons t ts ih =>
    have hparts : (ofList (t :: ts)).parts = [⟨_, t⟩, ⟨_, ofList ts⟩] := rfl
    rw [everywhere_iff, hparts, List.forall_mem_cons, List.forall_mem_singleton, ih, List.forall_mem_cons]
    exact and_iff_right (hφ _)

end

end Unminify.Tree
