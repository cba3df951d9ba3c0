import Unminify.Proofs.Pass.Walk

/-!
# Watching a pass

What is said of a pass with any rules is often of one kind: its result has some property, unless
something has shown in the state by then, such as a stop. A `Watch` says what is looked at and when it
gives alarm, and a step `Brings` a property if its result has it as long as nothing has shown. An alarm
is never taken back, so steps can be put together without regard to what the first of them has done
before it (`Brings.bind`).

A walk makes the same few steps again and again. `Carries` says what each of them is to do for a
relation between phrases before and after it; then the relation holds between a phrase and what a walk
of any depth makes of it (`Carries.brings_walk`).
-/

namespace Unminify

namespace Pass

open Tree

/-- A way to watch a pass: what is seen of a state, and what of it gives alarm. A stop always does. -/
structure Watch where
  Seen : Type
  view : State → Seen
  alarm : Seen → Prop
  atStop : ∀ s, s.error ≠ Option.none → alarm (view s)

namespace Watch

/-- The result of a step has a property and what is seen has not changed, or there is alarm. -/
def Brings (w : Watch) {α : Type} (x : Pass α) (Q : α → Prop) : Prop :=
  ∀ s, (w.view (x.run s).2 = w.view s ∧ Q (x.run s).1) ∨ w.alarm (w.view (x.run s).2)

section

variable {w : Watch} {α β : Type} {x : Pass α} {f : α → Pass β} {P Q : α → Prop} {S : β → Prop}

theorem brings_pure {a : α} (h : Q a) : w.Brings (pure a) Q := fun _ => .inl ⟨rfl, h⟩

theorem Brings.imp (hx : w.Brings x P) (h : ∀ a, P a → Q a) : w.Brings x Q :=
  fun s => (hx s).imp_left fun hs => ⟨hs.1, h _ hs.2⟩

/-- The second step may rely on what the first has brought; it keeps an alarm whatever it is given. -/
theorem Brings.bind (hx : w.Brings x P) (hf : ∀ a, w.Brings (f a) fun b => P a → S b) :
    w.Brings (x >>= f) S := by
  intro s
  have hrest := hf (x.run s).1 (x.run s).2
  rcases hx s with ⟨hview, hP⟩ | halarm
  · exact hrest.imp_left fun h => ⟨h.1.trans hview, h.2 hP⟩
  · exact .inr (hrest.elim (fun h => h.1.symm ▸ halarm) id)

/-- A step that certainly gives alarm brings anything. -/
theorem brings_of_alarm (h : ∀ s, w.alarm (w.view (x.run s).2)) : w.Brings x Q := fun s => .inr (h s)

theorem brings_fail (e : PassError) {Q : Unit → Prop} : w.Brings (fail e) Q := by
  refine brings_of_alarm fun s => w.atStop _ ?_
  show (s.error <|> some e) ≠ Option.none
  cases s.error <;> exact nofun

/-- Once stopped, there is alarm anyway. -/
theorem Brings.unlessStopped (hx : w.Brings x Q) (a : α) :
    w.Brings (do if ← stopped then return a else x) Q := by
  intro s
  show (w.view ((if s.error.isSome = true then (pure a : Pass α) else x).run s).2 = _ ∧
    Q ((if s.error.isSome = true then (pure a : Pass α) else x).run s).1) ∨
      w.alarm (w.view ((if s.error.isSome = true then (pure a : Pass α) else x).run s).2)
  split
  · rename_i hstopped
    exact .inr (w.atStop s (Option.isSome_iff_ne_none.mp hstopped))
  · exact hx s

end

/-! ## Walks -/

/-- What a walk does with a body that it has walked. -/
def coerce : Tree .body → Pass (Tree .body)
  | .body (.sequence inner) => do
    count fun s => { s with coerced := s.coerced + 1 }
    return .body (.blockStmt inner)
  | other => return other

/-- Every step of a walk carries a relation between what it is given and what the walk makes of it, as
soon as the walk of the phrases inside does. -/
structure Carries (w : Watch) (table : RuleTable) (R : (c : Category) → Tree c → Tree c → Prop) :
    Prop where
  inPlace : ∀ {c : Category} {t : Tree c} {us : List Phrase}, isActedOn c = false →
    Related R t.visited us → R c t (t.rebuild us)
  block : ∀ b : Block, w.Brings (sweep table b.statements) fun ss =>
    ∀ items, R _ (ofList ss) items → R .block b (blockOf (splice items.toList))
  body : ∀ s u : Stmt, w.Brings (coerce (.body u)) fun b => R .stmt s u → R .body (.body s) b
  stmt : ∀ s : Stmt, w.Brings (simplifyStmt table s) fun s' =>
    ∀ us, Related R s'.visited us → R .stmt s (s'.rebuild us)
  expr : ∀ e : Expr, w.Brings (applyToExpr table e) fun e' =>
    ∀ us, Related R e'.visited us → R .expr e (e'.rebuild us)

section

variable {w : Watch} {table : RuleTable} {R : (c : Category) → Tree c → Tree c → Prop}

theorem brings_walkAll {c : Category} {f : (c : Category) → Tree c → Pass (Tree c)} {ps : List Phrase}
    (h : ∀ p ∈ ps, w.Brings (f p.1 p.2) (R p.1 p.2)) (build : List Phrase → Tree c) :
    w.Brings (walkAll f ps build) fun u => ∃ us, u = build us ∧ Related R ps us := by
  induction ps generalizing build with
  | nil => exact brings_pure ⟨[], rfl, .nil⟩
  | cons p ps ih =>
    refine (h p List.mem_cons_self).bind fun u => ?_
    refine (ih (fun q hq => h q (List.mem_cons_of_mem _ hq)) _).imp ?_
    rintro _ ⟨us, rfl, hus⟩ hu
    exact ⟨⟨p.1, u⟩ :: us, rfl, .cons hu hus⟩

/-- The walk of the parts of a phrase, given the walk at a lower depth. -/
theorem Carries.brings_descend (hR : w.Carries table R) {depth : Nat}
    (hwalk : ∀ c (t : Tree c), w.Brings (walk table depth c t) (R c t)) {c : Category} (t : Tree c) :
    w.Brings (t.descend (hookAt table depth)) fun u =>
      ∃ us, u = t.rebuild us ∧ Related R t.visited us := by
  induction t using induction_on_parts with
  | step c t ih =>
    rw [descend_eq]
    refine brings_walkAll (fun p hp => ?_) t.rebuild
    rw [hookAt]
    split
    · exact hwalk p.1 p.2
    · rename_i hacted
      refine (ih p (mem_parts_of_visited hp)).imp ?_
      rintro _ ⟨us, rfl, hus⟩
      exact hR.inPlace (Bool.eq_false_iff.mpr hacted) hus

/-- The walk of a statement list that has been swept. -/
theorem Carries.brings_block (hR : w.Carries table R) {depth : Nat}
    (hwalk : ∀ c (t : Tree c), w.Brings (walk table depth c t) (R c t)) (b : Block) :
    w.Brings (walk table (depth + 1) .block b) (R .block b) := by
  rw [walk_succ]
  refine Brings.unlessStopped ((hR.block b).bind fun ss => ?_) _
  refine (hR.brings_descend hwalk (blockOf ss)).bind fun walked => brings_pure ?_
  rintro ⟨us, rfl, hus⟩ hblock
  cases hus with
  | cons hitems hnil =>
    cases hnil
    exact hblock _ hitems

/-- The walk of a body, and what is done with a sequence that is left in it. -/
theorem Carries.brings_body (hR : w.Carries table R) {depth : Nat}
    (hwalk : ∀ c (t : Tree c), w.Brings (walk table depth c t) (R c t)) (b : Tree .body) :
    w.Brings (walk table (depth + 1) .body b) (R .body b) := by
  have hcoerce : walk table (depth + 1) .body b = b.descend (hookAt table depth) >>= coerce := by
    rw [walk_succ]
    refine bind_congr fun u => ?_
    cases u with
    | body s => cases s <;> rfl
  cases b with
  | body s =>
    rw [hcoerce]
    refine (hR.brings_descend hwalk (.body s)).bind fun walked => ?_
    cases walked with
    | body u =>
      refine (hR.body s u).imp ?_
      rintro b hbody ⟨us, hu, hus⟩
      cases hus with
      | cons hs hnil =>
        cases hnil
        cases hu
        exact hbody hs

/-- What each step carries, a walk carries, however deep it goes. -/
theorem Carries.brings_walk (hR : w.Carries table R) (depth : Nat) (c : Category) (t : Tree c) :
    w.Brings (walk table depth c t) (R c t) := by
  induction depth generalizing c t with
  | zero => exact (brings_fail _).bind fun _ => brings_pure False.elim
  | succ depth ih =>
    cases c with
    | block => exact hR.brings_block ih t
    | body => exact hR.brings_body ih t
    | stmt =>
      rw [walk_succ]
      refine Brings.unlessStopped ((hR.stmt t).bind fun s => ?_) _
      refine (hR.brings_descend ih s).imp ?_
      rintro _ ⟨us, rfl, hus⟩ hstmt
      exact hstmt us hus
    | expr =>
      rw [walk_succ]
      refine Brings.unlessStopped ((hR.expr t).bind fun e => ?_) _
      refine (hR.brings_descend ih e).imp ?_
      rintro _ ⟨us, rfl, hus⟩ hexpr
      exact hexpr us hus
    | _ =>
      rw [walk_succ]
      refine (hR.brings_descend ih t).imp ?_
      rintro _ ⟨us, rfl, hus⟩
      exact hR.inPlace rfl hus

end

end Watch

end Pass

end Unminify
