import Unminify.Pattern.Hole
import Unminify.Syntax.Kind
import Unminify.Proofs.Syntax.Parts

/-!
# Sameness of trees

Two trees are the same when they differ at most in the positions of identifiers. On trees without
non-numbers this is an equivalence: `same_refl` needs that premise, because a non-number differs from
itself, while `same_symm` and `same_trans` hold of all trees.

The laws are read off the parts: `same_iff` says that sameness is one form and the same parts.
`holes_eq_of_same` adds that the same trees have the same holes.
-/

namespace Unminify

/-! ## Numbers and scalars -/

theorem Binary64.equal_self {x : Binary64} (h : x.isNaN = false) : x.equal x = true := by
  simp only [equal, h, beq_self_eq_true, Bool.true_or, Bool.not_false, Bool.and_self]

theorem Binary64.equal_symm {x y : Binary64} (h : x.equal y = true) : y.equal x = true := by
  simp only [equal, Bool.and_eq_true, Bool.or_eq_true, beq_iff_eq] at h ⊢
  obtain ⟨⟨hx, hy⟩, h⟩ := h
  exact ⟨⟨hy, hx⟩, h.imp Eq.symm And.symm⟩

theorem Binary64.isZero_of_bits_eq {x y : Binary64} (h : x.bits = y.bits) : x.isZero = y.isZero := by
  simp only [isZero, field, fraction, h]

theorem Binary64.equal_trans {x y z : Binary64} (hxy : x.equal y = true) (hyz : y.equal z = true) :
    x.equal z = true := by
  simp only [equal, Bool.and_eq_true, Bool.or_eq_true, beq_iff_eq] at hxy hyz ⊢
  obtain ⟨⟨hx, -⟩, hxy⟩ := hxy
  obtain ⟨⟨-, hz⟩, hyz⟩ := hyz
  refine ⟨⟨hx, hz⟩, ?_⟩
  rcases hxy with hxy | ⟨hx0, hy0⟩ <;> rcases hyz with hyz | ⟨hy0', hz0⟩
  · exact .inl (hxy.trans hyz)
  · exact .inr ⟨(isZero_of_bits_eq hxy).trans hy0', hz0⟩
  · exact .inr ⟨hx0, (isZero_of_bits_eq hyz).symm.trans hy0⟩
  · exact .inr ⟨hx0, hz0⟩

theorem Literal.same_symm {a b : Literal} (h : a.same b = true) : b.same a = true := by
  cases a <;> cases b <;> simp_all only [same, beq_iff_eq, reduceCtorEq, Binary64.equal_symm]

theorem Literal.same_trans {a b d : Literal} (hab : a.same b = true) (hbd : b.same d = true) :
    a.same d = true := by
  cases a <;> cases b <;> simp only [same, beq_iff_eq, reduceCtorEq] at hab <;>
    cases d <;> simp only [same, beq_iff_eq, reduceCtorEq] at hbd ⊢
  case number => exact Binary64.equal_trans hab hbd
  all_goals exact hab.trans hbd

namespace Scalar

/-- Whether a scalar is a non-number, alone or as a literal. -/
def isNaN : Scalar → Bool
  | number x => x.isNaN
  | literal (.number x) => x.isNaN
  | _ => false

theorem same_self {a : Scalar} (h : a.isNaN = false) : a.same a = true := by
  cases a with
  | position _ => rfl
  | number x => exact Binary64.equal_self h
  | literal l =>
    cases l with
    | number x => exact Binary64.equal_self h
    | _ => exact beq_self_eq_true _
  | _ => exact beq_self_eq_true _

theorem same_symm {a b : Scalar} (h : a.same b = true) : b.same a = true := by
  cases a <;> cases b <;>
    simp_all only [same, beq_iff_eq, reduceCtorEq, Binary64.equal_symm, Literal.same_symm]

theorem same_trans {a b d : Scalar} (hab : a.same b = true) (hbd : b.same d = true) :
    a.same d = true := by
  cases a <;> cases b <;> simp only [same, beq_iff_eq, reduceCtorEq] at hab <;>
    cases d <;> simp only [same, beq_iff_eq, reduceCtorEq] at hbd ⊢
  case number => exact Binary64.equal_trans hab hbd
  case literal => exact Literal.same_trans hab hbd
  all_goals exact hab.trans hbd

end Scalar

theorem sameScalars_cons {a b : Scalar} {as bs : List Scalar} :
    sameScalars (a :: as) (b :: bs) = true ↔ a.same b = true ∧ sameScalars as bs = true := by
  cases as <;> cases bs <;> simp [sameScalars]

theorem sameScalars_self {as : List Scalar} (h : ∀ a ∈ as, a.isNaN = false) :
    sameScalars as as = true := by
  induction as with
  | nil => rfl
  | cons a as ih =>
    have ha := Scalar.same_self (h a List.mem_cons_self)
    exact sameScalars_cons.mpr ⟨ha, ih fun b hb => h b (List.mem_cons_of_mem _ hb)⟩

theorem sameScalars_symm {as bs : List Scalar} (h : sameScalars as bs = true) :
    sameScalars bs as = true := by
  induction as generalizing bs with
  | nil => cases bs with
    | nil => rfl
    | cons b bs => cases h
  | cons a as ih =>
    cases bs with
    | nil => cases as <;> cases h
    | cons b bs =>
      obtain ⟨hab, h⟩ := sameScalars_cons.mp h
      exact sameScalars_cons.mpr ⟨Scalar.same_symm hab, ih h⟩

theorem sameScalars_trans {as bs ds : List Scalar} (hab : sameScalars as bs = true)
    (hbd : sameScalars bs ds = true) : sameScalars as ds = true := by
  induction as generalizing bs ds with
  | nil => cases bs with
    | nil => exact hbd
    | cons b bs => cases hab
  | cons a as ih =>
    cases bs with
    | nil => cases as <;> cases hab
    | cons b bs =>
      cases ds with
      | nil => cases bs <;> cases hbd
      | cons d ds =>
        obtain ⟨ha, hab⟩ := sameScalars_cons.mp hab
        obtain ⟨hb, hbd⟩ := sameScalars_cons.mp hbd
        exact sameScalars_cons.mpr ⟨Scalar.same_trans ha hb, ih hab hbd⟩

namespace Tree

/-! ## Lists of phrases -/

/-- Two lists of phrases related one by one, phrases of one category each. -/
inductive Related (R : (c : Category) → Tree c → Tree c → Prop) : List Phrase → List Phrase → Prop
  | nil : Related R [] []
  | cons {c : Category} {t u : Tree c} {ps qs : List Phrase} :
    R c t u → Related R ps qs → Related R (⟨c, t⟩ :: ps) (⟨c, u⟩ :: qs)

namespace Related

variable {R S T : (c : Category) → Tree c → Tree c → Prop} {ps qs rs : List Phrase}

/-- Related lists have phrases of the same categories. -/
theorem aligned (h : Related R ps qs) : ps.map Sigma.fst = qs.map Sigma.fst := by
  induction h with
  | nil => rfl
  | cons _ _ ih => rw [List.map_cons, List.map_cons, ih]

theorem imp_mem (h : Related R ps qs)
    (step : ∀ p ∈ ps, ∀ u, ⟨p.1, u⟩ ∈ qs → R p.1 p.2 u → S p.1 p.2 u) : Related S ps qs := by
  induction h with
  | nil => exact .nil
  | cons hr _ ih =>
    refine .cons (step _ List.mem_cons_self _ List.mem_cons_self hr) (ih fun p hp u hu => ?_)
    exact step p (List.mem_cons_of_mem _ hp) u (List.mem_cons_of_mem _ hu)

theorem imp (h : Related R ps qs)
    (step : ∀ p ∈ ps, ∀ u, R p.1 p.2 u → S p.1 p.2 u) : Related S ps qs :=
  h.imp_mem fun p hp u _ hr => step p hp u hr

theorem symm (h : Related R ps qs)
    (step : ∀ p ∈ ps, ∀ u, R p.1 p.2 u → S p.1 u p.2) : Related S qs ps := by
  induction h with
  | nil => exact .nil
  | cons hr _ ih =>
    exact .cons (step _ List.mem_cons_self _ hr) (ih fun p hp => step p (List.mem_cons_of_mem _ hp))

theorem trans (h : Related R ps qs) (h' : Related S qs rs)
    (step : ∀ p ∈ ps, ∀ u v, R p.1 p.2 u → S p.1 u v → T p.1 p.2 v) : Related T ps rs := by
  induction h generalizing rs with
  | nil => cases h'; exact .nil
  | cons hr _ ih =>
    cases h' with
    | cons hs h' =>
      exact .cons (step _ List.mem_cons_self _ _ hr hs)
        (ih h' fun p hp => step p (List.mem_cons_of_mem _ hp))

theorem refl (h : ∀ p ∈ ps, R p.1 p.2 p.2) : Related R ps ps := by
  induction ps with
  | nil => exact .nil
  | cons p ps ih =>
    exact .cons (h p List.mem_cons_self) (ih fun q hq => h q (List.mem_cons_of_mem _ hq))

theorem append {ps' qs' : List Phrase} (h : Related R ps qs) (h' : Related R ps' qs') :
    Related R (ps ++ ps') (qs ++ qs') := by
  induction h with
  | nil => exact h'
  | cons hr _ ih => exact .cons hr ih

theorem of_append {ps' : List Phrase} (h : Related R (ps ++ ps') rs) :
    ∃ qs qs', rs = qs ++ qs' ∧ Related R ps qs ∧ Related R ps' qs' := by
  induction ps generalizing rs with
  | nil => exact ⟨[], rs, rfl, .nil, h⟩
  | cons p ps ih =>
    cases h with
    | cons hr h =>
      obtain ⟨qs, qs', rfl, h₁, h₂⟩ := ih h
      exact ⟨_ :: qs, qs', rfl, .cons hr h₁, h₂⟩

/-- Phrases that each have a relative are related to a list. -/
theorem exists_of_forall (h : ∀ p ∈ ps, ∃ u, R p.1 p.2 u) : ∃ qs, Related R ps qs := by
  induction ps with
  | nil => exact ⟨[], .nil⟩
  | cons p ps ih =>
    obtain ⟨u, hu⟩ := h p List.mem_cons_self
    obtain ⟨qs, hqs⟩ := ih fun q hq => h q (List.mem_cons_of_mem _ hq)
    exact ⟨⟨p.1, u⟩ :: qs, .cons hu hqs⟩

/-- Lists related through phrases in between are related through a list in between. -/
theorem between (h : Related (fun c t v => ∃ u, R c t u ∧ S c u v) ps rs) :
    ∃ qs, Related R ps qs ∧ Related S qs rs := by
  induction h with
  | nil => exact ⟨[], .nil, .nil⟩
  | cons hr _ ih =>
    obtain ⟨u, hu, hv⟩ := hr
    obtain ⟨qs, hqs, hqs'⟩ := ih
    exact ⟨_ :: qs, .cons hu hqs, .cons hv hqs'⟩

/-- Lists related by giving the same results give the same results together. -/
theorem flatMap_eq {α : Type} {f : {c : Category} → Tree c → List α}
    (h : Related (fun _ t u => f t = f u) ps qs) :
    ps.flatMap (fun p => f p.2) = qs.flatMap fun p => f p.2 := by
  induction h with
  | nil => rfl
  | cons hr _ ih => rw [List.flatMap_cons, List.flatMap_cons, ih, hr]

/-- A relation of lists is a relation of their pairs. -/
theorem iff_pairUp (h : ps.map Sigma.fst = qs.map Sigma.fst) :
    Related R ps qs ↔ ∀ x ∈ pairUp ps qs, R x.1 x.2.1 x.2.2 := by
  induction ps generalizing qs with
  | nil =>
    rw [List.map_eq_nil_iff.mp h.symm]
    exact ⟨fun _ x hx => (nomatch hx), fun _ => .nil⟩
  | cons p ps ih =>
    obtain ⟨c, t⟩ := p
    obtain ⟨⟨d, u⟩, qs, rfl, hd, hqs⟩ := List.map_eq_cons_iff.mp h.symm
    cases hd
    rw [pairUp_cons, List.forall_mem_cons, ← ih hqs.symm]
    exact ⟨fun h => by cases h with | cons hr h => exact ⟨hr, h⟩, fun h => .cons h.1 h.2⟩

end Related

/-! ## Comparisons without effects -/

theorem agreeAll_iff {f : (c : Category) → Tree c → Tree c → Id Bool} {l : List Pair} :
    (agreeAll f l).run = true ↔ ∀ x ∈ l, (f x.1 x.2.1 x.2.2).run = true := by
  induction l with
  | nil => simp [agreeAll]
  | cons x l ih =>
    rw [List.forall_mem_cons, ← ih]
    cases l with
    | nil => simp [agreeAll]
    | cons y l =>
      have step : (agreeAll f (x :: y :: l)).run =
          if (f x.1 x.2.1 x.2.2).run = true then (agreeAll f (y :: l)).run else false := rfl
      rw [step]
      by_cases hx : (f x.1 x.2.1 x.2.2).run = true
      · rw [if_pos hx]
        exact ⟨fun h => ⟨hx, h⟩, fun h => h.2⟩
      · rw [if_neg hx]
        exact ⟨fun h => absurd h Bool.false_ne_true, fun h => absurd h.1 hx⟩

/-- A comparison without effects succeeds when the forms are the same and it succeeds on the
parts. -/
theorem agree_iff (hook : PairHook Id) {c : Category} (t u : Tree c) :
    (agree hook t u).run = true ↔ t.sameForm u = true ∧
      Related (fun c t u => (hook c t u fun _ => agree hook t u).run = true) t.parts u.parts := by
  rw [agree_eq]
  split
  · rename_i h
    rw [agreeAll_iff, Related.iff_pairUp (parts_aligned h)]
    exact ⟨fun h' => ⟨h, h'⟩, fun h' => h'.2⟩
  · rename_i h
    exact ⟨fun h' => absurd h' Bool.false_ne_true, fun h' => absurd h'.1 h⟩

/-- Trees are the same when they have the same form and the same parts. -/
theorem same_iff {c : Category} {t u : Tree c} :
    t.same u = true ↔
      t.sameForm u = true ∧ Related (fun _ t u => t.same u = true) t.parts u.parts :=
  agree_iff _ t u

/-! ## Sameness is an equivalence -/

/-- No number of a tree is a non-number. -/
def NaNFree {c : Category} (t : Tree c) : Prop :=
  ∀ p ∈ t.phrases, ∀ x ∈ p.2.scalars, x.isNaN = false

instance {c : Category} (t : Tree c) : Decidable t.NaNFree :=
  inferInstanceAs (Decidable (∀ p ∈ t.phrases, ∀ x ∈ p.2.scalars, x.isNaN = false))

theorem NaNFree.part {c : Category} {t : Tree c} (h : t.NaNFree) {p : Phrase} (hp : p ∈ t.parts) :
    p.2.NaNFree :=
  fun q hq => h q (mem_phrases_of_part hp hq)

theorem NaNFree.scalars {c : Category} {t : Tree c} (h : t.NaNFree) :
    ∀ x ∈ t.scalars, x.isNaN = false :=
  h ⟨c, t⟩ t.self_mem_phrases

theorem sameForm_iff {c : Category} {t u : Tree c} :
    t.sameForm u = true ↔ t.ctorIdx = u.ctorIdx ∧ sameScalars t.scalars u.scalars = true := by
  rw [sameForm, Bool.and_eq_true, Nat.beq_eq]

theorem sameForm_symm {c : Category} {t u : Tree c} (h : t.sameForm u = true) :
    u.sameForm t = true := by
  obtain ⟨hidx, hscalars⟩ := sameForm_iff.mp h
  exact sameForm_iff.mpr ⟨hidx.symm, sameScalars_symm hscalars⟩

theorem sameForm_trans {c : Category} {t u v : Tree c} (htu : t.sameForm u = true)
    (huv : u.sameForm v = true) : t.sameForm v = true := by
  obtain ⟨hidx, hscalars⟩ := sameForm_iff.mp htu
  obtain ⟨hidx', hscalars'⟩ := sameForm_iff.mp huv
  exact sameForm_iff.mpr ⟨hidx.trans hidx', sameScalars_trans hscalars hscalars'⟩

theorem same_refl {c : Category} {t : Tree c} (h : t.NaNFree) : t.same t = true := by
  induction t using induction_on_parts with
  | step c t ih =>
    refine same_iff.mpr ⟨sameForm_iff.mpr ⟨rfl, sameScalars_self h.scalars⟩, ?_⟩
    exact .refl fun p hp => ih p hp (h.part hp)

theorem same_symm {c : Category} {t u : Tree c} (h : t.same u = true) : u.same t = true := by
  induction t using induction_on_parts with
  | step c t ih =>
    obtain ⟨hform, hparts⟩ := same_iff.mp h
    obtain ⟨hidx, hscalars⟩ := sameForm_iff.mp hform
    refine same_iff.mpr ⟨sameForm_iff.mpr ⟨hidx.symm, sameScalars_symm hscalars⟩, ?_⟩
    exact hparts.symm fun p hp u hu => ih p hp hu

theorem same_trans {c : Category} {t u v : Tree c} (htu : t.same u = true) (huv : u.same v = true) :
    t.same v = true := by
  induction t using induction_on_parts with
  | step c t ih =>
    obtain ⟨htu, htuParts⟩ := same_iff.mp htu
    obtain ⟨huv, huvParts⟩ := same_iff.mp huv
    refine same_iff.mpr ⟨sameForm_trans htu huv, ?_⟩
    exact htuParts.trans huvParts fun p hp u v hu hv => ih p hp hu hv

/-! ## Holes -/

/-- The hole that a phrase is. -/
def hole? : {c : Category} → Tree c → Option Hole
  | _, .nameHole index => Option.some ⟨.generic, index⟩
  | _, .stmtHole index _ => Option.some ⟨.statement, index⟩
  | _, .exprHole index _ => Option.some ⟨.expression, index⟩
  | _, _ => Option.none

/-- The holes of a tree, in order, as often as they occur. -/
def holes {c : Category} (t : Tree c) : List Hole := t.phrases.filterMap (·.2.hole?)

theorem holes_eq {c : Category} (t : Tree c) :
    t.holes = t.hole?.toList ++ t.parts.flatMap (·.2.holes) :=
  filterMap_phrases _ t

theorem mem_holes_of_hole? {c : Category} {t : Tree c} {k : Hole} (h : t.hole? = Option.some k) :
    k ∈ t.holes := by
  rw [holes_eq, h]
  exact List.mem_cons_self

theorem mem_holes_of_part {c : Category} {t : Tree c} {p : Phrase} (hp : p ∈ t.parts) {k : Hole}
    (hk : k ∈ p.2.holes) : k ∈ t.holes := by
  rw [holes_eq]
  exact List.mem_append_right _ (List.mem_flatMap.mpr ⟨p, hp, hk⟩)

theorem holes_part {c : Category} {t : Tree c} (h : t.holes = []) {p : Phrase} (hp : p ∈ t.parts) :
    p.2.holes = [] := by
  rw [holes_eq, List.append_eq_nil_iff, List.flatMap_eq_nil_iff] at h
  exact h.2 p hp

theorem hole?_of_holes {c : Category} {t : Tree c} (h : t.holes = []) : t.hole? = Option.none := by
  rw [holes_eq, List.append_eq_nil_iff] at h
  exact Option.toList_eq_nil_iff.mp h.1

/-- Statements of one form are of one kind. -/
theorem kind_eq_of_sameForm {t u : Stmt} (h : t.sameForm u = true) : t.kind = u.kind := by
  replace h := Nat.eq_of_beq_eq_true (Bool.and_eq_true_iff.mp h).1
  cases t <;> refine of_ctorIdx (motive := fun u => _ = kind u) h (.up ?_) <;> repeat intro _
  all_goals rfl

theorem hole?_rebuild {c : Category} (t : Tree c) (us : List Phrase) :
    (t.rebuild us).hole? = t.hole? := by
  cases t <;> rfl

theorem holes_of_parts {c : Category} {t : Tree c} (ht : t.hole? = Option.none)
    (h : ∀ q ∈ t.parts, q.2.holes = []) : t.holes = [] := by
  rw [holes_eq, ht, List.flatMap_eq_nil_iff.mpr h]
  rfl

theorem holes_rebuild {c : Category} {t : Tree c} {us : List Phrase}
    (halign : us.map Sigma.fst = t.visited.map Sigma.fst) (ht : t.hole? = Option.none)
    (hrest : ∀ q ∈ t.unvisited, q.2.holes = []) (hus : ∀ u ∈ us, u.2.holes = []) :
    (t.rebuild us).holes = [] := by
  refine holes_of_parts ((hole?_rebuild t us).trans ht) fun q hq => ?_
  rw [parts_eq, visited_rebuild halign, unvisited_rebuild] at hq
  exact (List.mem_append.mp hq).elim (hus q) (hrest q)

theorem hole?_eq_of_sameForm {c : Category} {t u : Tree c} (h : t.sameForm u = true) {k : Hole}
    (hk : t.hole? = Option.some k) : u.hole? = Option.some k := by
  obtain ⟨hidx, hscalars⟩ := sameForm_iff.mp h
  cases t with
  | nameHole i =>
    cases u with
    | nameHole j =>
      rw [← hk, show i = j from beq_iff_eq.mp hscalars]
    | ident _ _ => cases hidx
  | stmtHole i a =>
    cases u with
    | stmtHole j b =>
      obtain ⟨hij, -⟩ := sameScalars_cons.mp hscalars
      rw [← hk, show i = j from beq_iff_eq.mp hij]
      rfl
    | _ => cases hidx
  | exprHole i a =>
    cases u with
    | exprHole j b =>
      obtain ⟨hij, -⟩ := sameScalars_cons.mp hscalars
      rw [← hk, show i = j from beq_iff_eq.mp hij]
      rfl
    | _ => cases hidx
  | _ => cases hk

theorem hole?_eq_of_same {c : Category} {t u : Tree c} (h : t.same u = true) : t.hole? = u.hole? := by
  have hform := (same_iff.mp h).1
  cases ht : t.hole? with
  | some k => exact (hole?_eq_of_sameForm hform ht).symm
  | none =>
    cases hu : u.hole? with
    | none => rfl
    | some k => exact ht.symm.trans (hole?_eq_of_sameForm (sameForm_symm hform) hu)

/-- The same trees have the same holes. -/
theorem holes_eq_of_same {c : Category} {t u : Tree c} (h : t.same u = true) : t.holes = u.holes := by
  induction t using induction_on_parts with
  | step c t ih =>
    rw [holes_eq, holes_eq, hole?_eq_of_same h]
    congr 1
    exact ((same_iff.mp h).2.imp ih).flatMap_eq

end Tree

end Unminify
