import Unminify.Proofs.Pass.Step

/-!
# Replacements

What the built-in rules keep when they replace a phrase: how deep it is, and what its forms are like.

Replacements are deeper than what they replace, so the depth of a walk is not bounded by the depth of
the phrase. The forms that rules replace are *charged* for what the replacements add, and a phrase
that is `Within` a depth in that sense stays within it whatever rules are applied
(`within_simplified`, `within_spelled`).

A replacement is made of parts of the phrase and of a few forms. A condition that is `Pervasive`, which
those forms have, holds of it as soon as it holds of the phrase (`everywhere_simplified`,
`everywhere_spelled`). To be no hole is such a condition; it is also `Lasting`, kept when the parts of a
form change.
-/

namespace Unminify

namespace Tree

/-! ## Depth -/

/-- The levels that a form counts for. -/
def charge : {c : Category} → Tree c → Nat
  | _, .functionStmt _ => 24
  | _, .binary _ _ _ | _, .conditional _ _ _ | _, .comma _ | _, .ifStmt _ _ _ | _, .whileStmt _ _
  | _, .doWhile _ _ | _, .forStmt _ _ _ _ | _, .forIn _ _ _ | _, .forOf _ _ _ _ => 6
  | _, _ => 1

theorem charge_pos {c : Category} (t : Tree c) : 1 ≤ t.charge := by
  unfold charge
  split <;> decide

theorem charge_le {c : Category} (t : Tree c) : t.charge ≤ 24 := by
  unfold charge
  split <;> decide

/-- A phrase and what a walk reaches from it, with the levels charged on the way, is at most so
deep. -/
inductive Within : Nat → {c : Category} → Tree c → Prop
  | mk {m n : Nat} {c : Category} {t : Tree c} (inner : ∀ p ∈ t.visited, Within n p.2)
    (le : t.charge + n ≤ m) : Within m t

theorem Within.pos {m : Nat} {c : Category} {t : Tree c} (h : Within m t) : 1 ≤ m := by
  cases h with
  | mk _ le =>
    have := t.charge_pos
    omega

theorem Within.mono {m m' : Nat} {c : Category} {t : Tree c} (h : Within m t) (hm : m ≤ m') :
    Within m' t := by
  cases h with
  | mk inner le => exact .mk inner (by omega)

/-- The visited parts of a phrase are within what its form leaves of the depth. -/
theorem Within.visited {m : Nat} {c : Category} {t : Tree c} (h : Within m t) {p : Phrase}
    (hp : p ∈ t.visited) : Within (m - t.charge) p.2 := by
  cases h with
  | mk inner le => exact (inner p hp).mono (by omega)

theorem Within.parts {n : Nat} {c : Category} {t : Tree c} (h : Within (n + 1) t) :
    Each (fun _ t => Within n t) t.visited := by
  have hcharge := t.charge_pos
  exact .of_forall fun p hp => (h.visited hp).mono (by omega)

theorem each_cons {motive : (c : Category) → Tree c → Prop} {c : Category} {t : Tree c}
    {ps : List Phrase} (ht : motive c t) (hps : Each motive ps) : Each motive (⟨c, t⟩ :: ps) :=
  ⟨ht, hps⟩

theorem each_nil {motive : (c : Category) → Tree c → Prop} : Each motive [] := trivial

/-- A phrase of an ordinary form is one level deeper than its parts. -/
theorem within_form {n : Nat} {c : Category} {t : Tree c} (hcharge : t.charge = 1)
    (h : Each (fun _ t => Within n t) t.visited) : Within (n + 1) t :=
  .mk h.of_mem (by omega)

theorem within_leaf {n : Nat} {c : Category} {t : Tree c} (hcharge : t.charge = 1)
    (hvisited : t.visited = []) (hn : 1 ≤ n) : Within n t :=
  .mk (n := 0) (by rw [hvisited]; exact fun p hp => (nomatch hp)) (by omega)

/-- A check that a phrase is within a depth, which looks at most `fuel` phrases down. -/
def withinDepth : (fuel : Nat) → Nat → {c : Category} → Tree c → Bool
  | 0, _, _, _ => false
  | fuel + 1, m, _, t =>
    decide (t.charge ≤ m) && t.visited.all fun p => withinDepth fuel (m - t.charge) p.2

theorem within_of_withinDepth {fuel m : Nat} {c : Category} {t : Tree c}
    (h : withinDepth fuel m t = true) : Within m t := by
  induction fuel generalizing m c t with
  | zero => cases h
  | succ fuel ih =>
    rw [withinDepth, Bool.and_eq_true, decide_eq_true_iff, List.all_eq_true] at h
    exact .mk (fun p hp => ih (h.2 p hp)) (by omega)

/-- The size of a phrase bounds its depth. -/
theorem within_size {c : Category} (t : Tree c) : Within (24 * t.size) t := by
  induction t using induction_on_parts with
  | step c t ih =>
    refine .mk (n := 24 * (t.size - 1)) (fun p hp => ?_) ?_
    · have hlt := size_lt_of_visited hp
      exact (ih p (mem_parts_of_visited hp)).mono (by omega)
    · have hle := t.charge_le
      have hpos : 1 ≤ t.size := by
        rw [size_eq_length, reached_eq]
        exact Nat.succ_le_succ (Nat.zero_le _)
      omega

/-! ### Depth of replacements -/

theorem within_exprStmt {n : Nat} {e : Expr} (h : Within n e) : Within (n + 1) (exprStmt e) :=
  within_form rfl (each_cons h each_nil)

/-- Splitting a comma expression makes its parts one level deeper. -/
theorem within_split {m : Nat} {es : List Expr} (h : Within m (ofList es)) :
    Within (m + 1) (ofList (es.map exprStmt)) := by
  induction es generalizing m with
  | nil => exact within_leaf rfl rfl (by omega)
  | cons e es ih =>
    have hpos := h.pos
    have he : Within (m - 1) e := h.visited List.mem_cons_self
    have hes : Within (m - 1) (ofList es) := h.visited (List.mem_cons_of_mem _ List.mem_cons_self)
    have hparts := each_cons (within_exprStmt he) (each_cons (ih hes) each_nil)
    exact (within_form rfl hparts).mono (by omega)

theorem within_braces {n : Nat} {s : Stmt} (h : Within n s) : Within (n + 4) (Builtin.braces s) := by
  have hnil : Within n (nil : Tree (.list .stmt)) := within_leaf rfl rfl h.pos
  have hitems : Within (n + 1) (cons s nil) := within_form rfl (each_cons h (each_cons hnil each_nil))
  have hblock : Within (n + 2) (stmts (cons s nil)) := within_form rfl (each_cons hitems each_nil)
  have hstmt : Within (n + 3) (blockStmt (stmts (cons s nil))) :=
    within_form rfl (each_cons hblock each_nil)
  exact within_form rfl (each_cons hstmt each_nil)

/-- Braces make a body at most three levels deeper. -/
theorem within_braced {m : Nat} {b : Tree .body} (h : Within m b) : Within (m + 3) b.braced := by
  cases b with
  | body s =>
    have hpos := h.pos
    have hs : Within (m - 1) s := h.visited List.mem_cons_self
    have hbraces : Within (m + 3) (Builtin.braces s) := (within_braces hs).mono (by omega)
    cases s with
    | blockStmt inner => exact h.mono (by omega)
    | sequence inner =>
      have hpos' := hs.pos
      have hinner : Within (m - 1 - 1) inner := hs.visited List.mem_cons_self
      have hblock : Within (m - 1 - 1 + 1) (blockStmt inner) :=
        within_form rfl (each_cons hinner each_nil)
      exact (within_form rfl (each_cons hblock each_nil)).mono (by omega)
    | emptyStmt =>
      have hnil : Within 1 (nil : Tree (.list .stmt)) := within_leaf rfl rfl (by omega)
      have hblock : Within 2 (stmts nil) := within_form rfl (each_cons hnil each_nil)
      have hstmt : Within 3 (blockStmt (stmts nil)) := within_form rfl (each_cons hblock each_nil)
      exact (within_form rfl (each_cons hstmt each_nil)).mono (by omega)
    | _ => exact hbraces

end Tree

namespace Builtin

open Tree

variable {bs : List Builtin} {n : Nat}

theorem within_none {c : Category} (hn : 1 ≤ n) : Within n (.none : Tree (.option c)) :=
  within_leaf rfl rfl hn

/-- A part of a statement, in braces if it is a body. -/
def bracedPart : Phrase → Phrase
  | ⟨.body, b⟩ => ⟨.body, b.braced⟩
  | p => p

/-- A charged statement leaves room for braces around its bodies. -/
theorem within_bracedParts {s s' : Stmt} (h : Within (n + 1) s) (hcharge : s.charge = 6)
    (hvisited : s'.visited = s.visited.map bracedPart) :
    Each (fun _ t => Within n t) s'.visited := by
  refine .of_forall fun p hp => ?_
  rw [hvisited] at hp
  obtain ⟨q, hq, rfl⟩ := List.mem_map.mp hp
  have hpart := h.visited hq
  have hpos := hpart.pos
  rw [hcharge] at hpart hpos
  obtain ⟨c, t⟩ := q
  cases c with
  | body => exact (within_braced hpart).mono (by omega)
  | _ => exact hpart.mono (by omega)

/-- What a rule makes of a statement is no deeper than the statement, charges counted. -/
theorem within_recast (b : Builtin) {s : Stmt} (h : Within (n + 1) s) :
    Each (fun _ t => Within n t) (b.recast s).visited := by
  cases s with
  | exprStmt e =>
    have he : Within n e := h.visited List.mem_cons_self
    cases e with
    | binary op left right =>
      have hleft : Within (n - 6) left := he.visited List.mem_cons_self
      have hright : Within (n - 6) right := he.visited (List.mem_cons_of_mem _ List.mem_cons_self)
      have hpos := hleft.pos
      have hbraces : Within n (braces (.exprStmt right)) :=
        (within_braces (within_exprStmt hright)).mono (by omega)
      have hnone : Within n (.none : Tree (.option .body)) := within_none (by omega)
      cases op with
      | and => exact each_cons (hleft.mono (by omega)) (each_cons hbraces (each_cons hnone each_nil))
      | or =>
        have hnot : Within (n - 6 + 1) (.unary .not left) := within_form rfl (each_cons hleft each_nil)
        exact each_cons (hnot.mono (by omega)) (each_cons hbraces (each_cons hnone each_nil))
      | _ => exact h.parts
    | conditional test left right =>
      have htest : Within (n - 6) test := he.visited List.mem_cons_self
      have hleft : Within (n - 6) left := he.visited (List.mem_cons_of_mem _ List.mem_cons_self)
      have hright : Within (n - 6) right :=
        he.visited (List.mem_cons_of_mem _ (List.mem_cons_of_mem _ List.mem_cons_self))
      have hpos := htest.pos
      have hbraces : Within n (braces (.exprStmt left)) :=
        (within_braces (within_exprStmt hleft)).mono (by omega)
      have hsome : Within (n - 6 + 1 + 4 + 1) (.some (braces (.exprStmt right))) :=
        within_form rfl (each_cons (within_braces (within_exprStmt hright)) each_nil)
      exact each_cons (htest.mono (by omega)) (each_cons hbraces
        (each_cons (hsome.mono (by omega)) each_nil))
    | _ => exact h.parts
  | ifStmt test consequent alternate =>
    cases alternate with
    | none => exact within_bracedParts h rfl rfl
    | some alternate =>
      by_cases hb : b = .ifElse
      · subst hb
        have htest : Within (n + 1 - 6) test := h.visited List.mem_cons_self
        have hbody : Within (n + 1 - 6) consequent :=
          h.visited (List.mem_cons_of_mem _ List.mem_cons_self)
        have hsome : Within (n + 1 - 6) (.some alternate) :=
          h.visited (List.mem_cons_of_mem _ (List.mem_cons_of_mem _ List.mem_cons_self))
        have halternate : Within (n + 1 - 6 - 1) alternate := hsome.visited List.mem_cons_self
        have hpos := halternate.pos
        have hbraced : Within (n + 1 - 6 - 1 + 3 + 1) (.some alternate.braced) :=
          within_form rfl (each_cons (within_braced halternate) each_nil)
        exact each_cons (htest.mono (by omega)) (each_cons ((within_braced hbody).mono (by omega))
          (each_cons (hbraced.mono (by omega)) each_nil))
      · refine within_bracedParts h rfl ?_
        rw [Pass.recast_ifStmt_some, if_neg hb]
        rfl
  | whileStmt test inner => exact within_bracedParts h rfl rfl
  | doWhile test inner => exact within_bracedParts h rfl rfl
  | forStmt init test step inner => exact within_bracedParts h rfl rfl
  | forIn left right inner => exact within_bracedParts h rfl rfl
  | forOf isAwait left right inner => exact within_bracedParts h rfl rfl
  | _ => exact h.parts

/-- The step at a statement keeps its parts within the depth. -/
theorem within_simplified {s : Stmt} (h : Within (n + 1) s) :
    Each (fun _ t => Within n t) (simplified bs s).visited := by
  by_cases hcomma : ∃ parts, s = .exprStmt (.comma parts)
  · obtain ⟨parts, rfl⟩ := hcomma
    have hcomma : Within n (.comma parts) := h.visited List.mem_cons_self
    have hparts : Within (n - 6) parts := hcomma.visited List.mem_cons_self
    have hpos := hparts.pos
    rw [← ofList_toList parts] at hparts
    have hblock : Within (n - 6 + 1 + 1) (blockOf (parts.toList.map exprStmt)) :=
      within_form rfl (each_cons (within_split hparts) each_nil)
    exact each_cons (hblock.mono (by omega)) each_nil
  · rw [Pass.simplified_of_ne fun parts h => hcomma ⟨parts, h⟩, reshaped]
    split
    · exact within_recast _ h
    · exact h.parts

theorem within_spelled {e : Expr} (h : Within (n + 1) e) :
    Each (fun _ t => Within n t) (spelled bs e).visited := by
  rw [spelled]
  cases hfind : bs.findSome? (·.spelling? e) with
  | none => exact h.parts
  | some written =>
    obtain ⟨b, -, hb⟩ := List.exists_of_findSome?_eq_some hfind
    obtain ⟨found, hconstant, hsame⟩ := Pass.spelling?_eq_some.mp hb
    have hform := (Tree.same_iff.mp hsame).1
    cases b with
    | voidZero =>
      cases hconstant
      cases e with
      | unary op arg =>
        have harg : Within n arg := h.visited List.mem_cons_self
        exact each_cons (within_leaf rfl rfl harg.pos) each_nil
      | _ => exact absurd hform Bool.false_ne_true
    | _ => cases hconstant <;> exact each_nil

/-- An interop helper is no deeper than what functions are charged. -/
theorem within_interopHelper {fn : Tree .function} (h : Within (n + 1) (.functionStmt fn))
    (name : String) (id : Option Nat) :
    Each (fun _ t => Within n t) (interopHelper (.ident name id) (.ident "obj" none)).visited := by
  have hfn : Within (n + 1 - 24) fn := h.visited List.mem_cons_self
  have hpos := hfn.pos
  have hall : (interopHelper (.ident name id) (.ident "obj" none)).visited.all
      (fun p => withinDepth 20 20 p.2) = true := rfl
  refine .of_forall fun p hp => ?_
  exact (within_of_withinDepth (List.all_eq_true.mp hall p hp)).mono (by omega)

end Builtin

namespace Tree

/-! ## Conditions that rules keep -/

/-- Whether rules put in or put together phrases of this form. -/
def isMade : {c : Category} → Tree c → Bool
  | _, .ident _ _ | _, .identExpr _ | _, .unary _ _ | _, .literal (.bool _) => true
  | _, .exprStmt _ | _, .blockStmt _ | _, .sequence _ | _, .ifStmt _ _ _ | _, .whileStmt _ _
  | _, .doWhile _ _ | _, .forStmt _ _ _ _ | _, .forIn _ _ _ | _, .forOf _ _ _ _ => true
  | _, .stmts _ | _, .body _ | _, .nil | _, .cons _ _ | _, .none | _, .some _ => true
  | _, _ => false

/-- A condition that every form has which rules make. -/
structure Pervasive (φ : Phrase → Prop) : Prop where
  made : ∀ {c : Category} {t : Tree c}, t.isMade = true → φ ⟨c, t⟩

/-- A condition on forms that walks keep: a form keeps it when its parts change, and forms other than
holes and numbers have it. -/
structure Lasting (φ : Phrase → Prop) : Prop where
  rebuild : ∀ {c : Category} {t : Tree c} (us : List Phrase), φ ⟨c, t⟩ → φ ⟨c, t.rebuild us⟩
  plain : ∀ {c : Category} {t : Tree c}, t.hole? = Option.none →
    (∀ x ∈ t.scalars, x.isNaN = false) → φ ⟨c, t⟩

theorem holes_eq_nil_iff {c : Category} {t : Tree c} :
    t.holes = [] ↔ t.Everywhere fun p => p.2.hole? = Option.none := by
  rw [holes, List.filterMap_eq_nil_iff]
  rfl

theorem lasting_hole? : Lasting fun p => p.2.hole? = Option.none where
  rebuild us h := by rw [hole?_rebuild, h]
  plain h _ := h

theorem lasting_nan : Lasting fun p => ∀ x ∈ p.2.scalars, x.isNaN = false where
  rebuild us h := by rw [scalars_rebuild]; exact h
  plain _ h := h

variable {φ : Phrase → Prop}

/-- Whether a form is neither a hole nor a number. -/
def isPlain {c : Category} (t : Tree c) : Bool := t.hole?.isNone && t.scalars.all (!·.isNaN)

theorem Lasting.of_isPlain (hφ : Lasting φ) {c : Category} {t : Tree c} (h : t.isPlain = true) :
    φ ⟨c, t⟩ := by
  rw [isPlain, Bool.and_eq_true, Option.isNone_iff_eq_none, List.all_eq_true] at h
  exact hφ.plain h.1 fun x hx => by simpa using h.2 x hx

theorem isPlain_of_isMade {c : Category} {t : Tree c} (h : t.isMade = true) : t.isPlain = true := by
  cases t with
  | literal l =>
    cases l with
    | bool _ => rfl
    | _ => cases h
  | ident _ _ => rfl
  | _ => first | rfl | cases h

theorem Lasting.pervasive (hφ : Lasting φ) : Pervasive φ := ⟨fun h => hφ.of_isPlain (isPlain_of_isMade h)⟩

theorem Pervasive.everywhere_of_isMade (hφ : Pervasive φ) {c : Category} {t : Tree c}
    (h : t.phrases.all (fun p => p.2.isMade) = true) : t.Everywhere φ :=
  fun p hp => hφ.made (List.all_eq_true.mp h p hp)

theorem Pervasive.everywhere_form (hφ : Pervasive φ) {c : Category} {t : Tree c} (h : t.isMade = true)
    (hparts : Each (fun _ t => t.Everywhere φ) t.parts) : t.Everywhere φ :=
  everywhere_iff.mpr ⟨hφ.made h, hparts.of_mem⟩

theorem Pervasive.everywhere_braces (hφ : Pervasive φ) {s : Stmt} (hs : s.Everywhere φ) :
    (Builtin.braces s).Everywhere φ := by
  have hnil : (nil : Tree (.list .stmt)).Everywhere φ := hφ.everywhere_form rfl each_nil
  have hitems : (cons s nil).Everywhere φ :=
    hφ.everywhere_form rfl (each_cons hs (each_cons hnil each_nil))
  have hblock : (stmts (cons s nil)).Everywhere φ := hφ.everywhere_form rfl (each_cons hitems each_nil)
  have hstmt : (blockStmt (stmts (cons s nil))).Everywhere φ :=
    hφ.everywhere_form rfl (each_cons hblock each_nil)
  exact hφ.everywhere_form rfl (each_cons hstmt each_nil)

theorem Pervasive.everywhere_braced (hφ : Pervasive φ) {b : Tree .body} (hb : b.Everywhere φ) :
    b.braced.Everywhere φ := by
  cases b with
  | body s =>
    have hs : s.Everywhere φ := hb.part List.mem_cons_self
    cases s with
    | blockStmt inner => exact hb
    | sequence inner =>
      have hinner : inner.Everywhere φ := hs.part List.mem_cons_self
      have hblock : (blockStmt inner).Everywhere φ :=
        hφ.everywhere_form rfl (each_cons hinner each_nil)
      exact hφ.everywhere_form rfl (each_cons hblock each_nil)
    | emptyStmt => exact hφ.everywhere_of_isMade rfl
    | _ => exact hφ.everywhere_braces hs

theorem Pervasive.everywhere_ofList (hφ : Pervasive φ) {c : Category} {ts : List (Tree c)} :
    (ofList ts).Everywhere φ ↔ ∀ t ∈ ts, t.Everywhere φ :=
  everywhere_ofList_iff fun t => hφ.made (by cases t <;> rfl)

/-- A comma expression that is split has the same phrases inside. -/
theorem Pervasive.everywhere_split (hφ : Pervasive φ) {parts : Tree (.list .expr)}
    (h : (exprStmt (.comma parts)).Everywhere φ) :
    (sequence (blockOf (parts.toList.map exprStmt))).Everywhere φ := by
  have hcomma : (comma parts).Everywhere φ := h.part List.mem_cons_self
  have hparts : parts.Everywhere φ := hcomma.part List.mem_cons_self
  rw [← ofList_toList parts, hφ.everywhere_ofList] at hparts
  have hitems : (ofList (parts.toList.map exprStmt)).Everywhere φ :=
    hφ.everywhere_ofList.mpr (List.forall_mem_map.mpr fun e he =>
      hφ.everywhere_form rfl (each_cons (hparts e he) each_nil))
  have hblock : (blockOf (parts.toList.map exprStmt)).Everywhere φ :=
    hφ.everywhere_form rfl (each_cons hitems each_nil)
  exact hφ.everywhere_form rfl (each_cons hblock each_nil)

end Tree

namespace Builtin

open Tree

variable {φ : Phrase → Prop} {bs : List Builtin}

theorem everywhere_bracedParts (hφ : Pervasive φ) {s s' : Stmt} (hs : s.Everywhere φ)
    (hmade : s'.isMade = true) (hparts : s'.parts = s.parts.map bracedPart) : s'.Everywhere φ := by
  refine hφ.everywhere_form hmade (.of_forall fun p hp => ?_)
  rw [hparts] at hp
  obtain ⟨q, hq, rfl⟩ := List.mem_map.mp hp
  have hpart := hs.part hq
  obtain ⟨c, t⟩ := q
  cases c with
  | body => exact hφ.everywhere_braced hpart
  | _ => exact hpart

theorem everywhere_recast (hφ : Pervasive φ) (b : Builtin) {s : Stmt} (hs : s.Everywhere φ) :
    (b.recast s).Everywhere φ := by
  have hnone : (Tree.none : Tree (.option .body)).Everywhere φ := hφ.everywhere_of_isMade rfl
  have hbraces : ∀ {e : Expr}, e.Everywhere φ → (braces (.exprStmt e)).Everywhere φ := fun he =>
    hφ.everywhere_braces (hφ.everywhere_form rfl (each_cons he each_nil))
  cases s with
  | exprStmt e =>
    have he : e.Everywhere φ := hs.part List.mem_cons_self
    cases e with
    | binary op left right =>
      have hleft : left.Everywhere φ := he.part List.mem_cons_self
      have hright : right.Everywhere φ := he.part (List.mem_cons_of_mem _ List.mem_cons_self)
      cases op with
      | and =>
        exact hφ.everywhere_form rfl
          (each_cons hleft (each_cons (hbraces hright) (each_cons hnone each_nil)))
      | or =>
        have hnot : (unary .not left).Everywhere φ := hφ.everywhere_form rfl (each_cons hleft each_nil)
        exact hφ.everywhere_form rfl
          (each_cons hnot (each_cons (hbraces hright) (each_cons hnone each_nil)))
      | _ => exact hs
    | conditional test left right =>
      have htest : test.Everywhere φ := he.part List.mem_cons_self
      have hleft : left.Everywhere φ := he.part (List.mem_cons_of_mem _ List.mem_cons_self)
      have hright : right.Everywhere φ :=
        he.part (List.mem_cons_of_mem _ (List.mem_cons_of_mem _ List.mem_cons_self))
      have hsome : (Tree.some (braces (.exprStmt right))).Everywhere φ :=
        hφ.everywhere_form rfl (each_cons (hbraces hright) each_nil)
      exact hφ.everywhere_form rfl
        (each_cons htest (each_cons (hbraces hleft) (each_cons hsome each_nil)))
    | _ => exact hs
  | ifStmt test consequent alternate =>
    cases alternate with
    | none => exact everywhere_bracedParts hφ hs rfl rfl
    | some alternate =>
      by_cases hb : b = .ifElse
      · subst hb
        have htest : test.Everywhere φ := hs.part List.mem_cons_self
        have hbody : consequent.Everywhere φ := hs.part (List.mem_cons_of_mem _ List.mem_cons_self)
        have hsome : (Tree.some alternate).Everywhere φ :=
          hs.part (List.mem_cons_of_mem _ (List.mem_cons_of_mem _ List.mem_cons_self))
        have halternate := hφ.everywhere_braced (hsome.part List.mem_cons_self)
        have hbraced : (Tree.some alternate.braced).Everywhere φ :=
          hφ.everywhere_form rfl (each_cons halternate each_nil)
        exact hφ.everywhere_form rfl
          (each_cons htest (each_cons (hφ.everywhere_braced hbody) (each_cons hbraced each_nil)))
      · rw [Pass.recast_ifStmt_some, if_neg hb]
        exact everywhere_bracedParts hφ hs rfl rfl
  | whileStmt test inner => exact everywhere_bracedParts hφ hs rfl rfl
  | doWhile test inner => exact everywhere_bracedParts hφ hs rfl rfl
  | forStmt init test step inner => exact everywhere_bracedParts hφ hs rfl rfl
  | forIn left right inner => exact everywhere_bracedParts hφ hs rfl rfl
  | forOf isAwait left right inner => exact everywhere_bracedParts hφ hs rfl rfl
  | _ => exact hs

theorem everywhere_simplified (hφ : Pervasive φ) {s : Stmt} (hs : s.Everywhere φ) :
    (simplified bs s).Everywhere φ := by
  by_cases hcomma : ∃ parts, s = .exprStmt (.comma parts)
  · obtain ⟨parts, rfl⟩ := hcomma
    exact hφ.everywhere_split hs
  · rw [Pass.simplified_of_ne fun parts h => hcomma ⟨parts, h⟩, reshaped]
    split
    · exact everywhere_recast hφ _ hs
    · exact hs

theorem everywhere_spelled (hφ : Pervasive φ) {e : Expr} (he : e.Everywhere φ) :
    (spelled bs e).Everywhere φ := by
  rw [spelled]
  cases hfind : bs.findSome? (·.spelling? e) with
  | none => exact he
  | some written =>
    obtain ⟨b, -, hb⟩ := List.exists_of_findSome?_eq_some hfind
    obtain ⟨found, hconstant, -⟩ := Pass.spelling?_eq_some.mp hb
    cases b <;> cases hconstant <;> exact hφ.everywhere_of_isMade rfl

theorem everywhere_interopHelper (hφ : Lasting φ) (name : String) (id : Option Nat) :
    (interopHelper (.ident name id) (.ident "obj" none)).Everywhere φ :=
  have hall : (interopHelper (.ident name id) (.ident "obj" none)).phrases.all
      (fun p => p.2.isPlain) = true := rfl
  fun p hp => hφ.of_isPlain (List.all_eq_true.mp hall p hp)

end Builtin

end Unminify
