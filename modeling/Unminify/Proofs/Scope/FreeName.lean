import Mathlib.Data.List.Nodup
import Mathlib.Data.List.Perm.Subperm
import Mathlib.Data.Nat.Find
import Unminify.Proofs.Scope.Lookup
import Unminify.Scope.Analysis

/-!
# The first free name

The search for a free name tries a name, then the name with `1` behind it, with `2` and so on. Nothing
in it says how far it has to go. What bounds it is that a name can only be refused because a binding
or a global has it (`mem_takenNames`), and that no two candidates are the same
(`candidate_injective`): of one candidate more than there are bindings and globals, one is free.

The search of the graph stops at that bound. `freeName_first` says that it has found the first free
candidate by then, and that a counter of 32 bits gets there as well in every graph whose bindings and
globals it can count.
-/

namespace Unminify.ScopeGraph

/-! ## Candidates -/

/-- The names that are tried, in order: a name, the name with `1` behind it, with `2`, and so on. -/
def candidate (name : String) : Nat → String
  | 0 => name
  | k + 1 => suffixed name (k + 1)

theorem suffixed_injective (name : String) : Function.Injective (suffixed name) := by
  intro m n h
  have hlists : name.toList ++ (toString m).toList = name.toList ++ (toString n).toList := by
    simpa only [suffixed, String.toList_append] using congrArg String.toList h
  have hdigits : Nat.toDigits 10 m = Nat.toDigits 10 n := by
    simpa only [Nat.toString_eq_repr, Nat.toList_repr] using List.append_cancel_left hlists
  -- reading the digits gives the number back
  calc m = Nat.ofDigitChars 10 (Nat.toDigits 10 m) 0 := Nat.ofDigitChars_ten_toDigits.symm
    _ = Nat.ofDigitChars 10 (Nat.toDigits 10 n) 0 := by rw [hdigits]
    _ = n := Nat.ofDigitChars_ten_toDigits

theorem suffixed_ne (name : String) (n : Nat) : suffixed name n ≠ name := by
  intro h
  have hlists : name.toList ++ Nat.toDigits 10 n = name.toList ++ [] := by
    simpa only [suffixed, String.toList_append, Nat.toString_eq_repr, Nat.toList_repr,
      List.append_nil] using congrArg String.toList h
  exact Nat.toDigits_ne_nil (List.append_cancel_left hlists)

/-- No candidate is tried twice. -/
theorem candidate_injective (name : String) : Function.Injective (candidate name) := by
  intro j k h
  cases j <;> cases k
  case zero.zero => rfl
  case zero.succ k => exact absurd h.symm (suffixed_ne name _)
  case succ.zero j => exact absurd h (suffixed_ne name _)
  case succ.succ j k => exact suffixed_injective name h

/-! ## Refused names -/

/-- The names that bindings have now, and the global ones. -/
def takenNames (g : ScopeGraph) : List String :=
  g.bindings.toList.map (·.name) ++ g.globals.toList

theorem length_takenNames (g : ScopeGraph) :
    g.takenNames.length = g.bindings.size + g.globals.size := by
  rw [takenNames, List.length_append, List.length_map, Array.length_toList, Std.TreeSet.length_toList]

/-- A name that a lookup finds is the name of a binding. -/
theorem mem_takenNames_of_lookup {g : ScopeGraph} {s : ScopeId} {name : String}
    (h : g.lookup s name ≠ none) : name ∈ g.takenNames := by
  obtain ⟨b, hb⟩ := Option.ne_none_iff_exists'.mp h
  rw [lookup_eq] at hb
  obtain ⟨x, hx, rfl⟩ := isNamed_iff.mp (List.find?_some hb)
  exact List.mem_append_left _ (List.mem_map_of_mem (Array.mem_toList_iff.mpr (Array.mem_of_getElem? hx)))

/-- Names are only refused to a binding because they are taken. -/
theorem mem_takenNames {g : ScopeGraph} {b : BindingId} {name : String} (hb : b < g.bindings.size)
    (hrefused : g.isNameFree b name = false) : name ∈ g.takenNames := by
  by_contra htaken
  have hunseen : ∀ s, g.lookup s name = none := fun s =>
    Decidable.byContradiction fun h => htaken (mem_takenNames_of_lookup h)
  have hglobal : g.isGlobal name = false := by
    rw [isGlobal, ← Bool.not_eq_true]
    exact fun h => htaken (List.mem_append_right _ (Std.TreeSet.mem_toList.mpr h))
  have hfree : g.isNameFree b name = true := isNameFree_iff.mpr
    ⟨g.bindings[b], Array.getElem?_eq_getElem hb, .inr ⟨hglobal, hunseen _, fun _ _ => hunseen _⟩⟩
  exact Bool.false_ne_true (hrefused.symm.trans hfree)

/-- One of the first candidates is free, of as many as there are bindings and globals and one more. -/
theorem exists_free {g : ScopeGraph} {b : BindingId} (hb : b < g.bindings.size) (name : String) :
    ∃ k ≤ g.bindings.size + g.globals.size, g.isNameFree b (candidate name k) = true := by
  by_contra hnone
  -- otherwise all of them are taken, and they are too many for that
  have htaken : (List.range (g.bindings.size + g.globals.size + 1)).map (candidate name) ⊆
      g.takenNames := by
    intro c hc
    obtain ⟨k, hk, rfl⟩ := List.mem_map.mp hc
    refine mem_takenNames hb (Bool.eq_false_iff.mpr fun hfree => hnone ⟨k, ?_, hfree⟩)
    exact Nat.le_of_lt_succ (List.mem_range.mp hk)
  have hdistinct : ((List.range (g.bindings.size + g.globals.size + 1)).map (candidate name)).Nodup :=
    List.nodup_range.map (candidate_injective name)
  have hlength := (hdistinct.subperm htaken).length_le
  rw [List.length_map, List.length_range, length_takenNames] at hlength
  omega

/-! ## The search -/

/-- The search for a free numbered name with no bound but what a counter of 32 bits can hold: there
is no result if the counter would overflow. -/
def countedFrom (g : ScopeGraph) (b : BindingId) (name : String) (n : UInt32) : Option String :=
  if g.isNameFree b (suffixed name n.toNat) then some (suffixed name n.toNat)
  else if n.toNat + 1 < UInt32.size then g.countedFrom b name (n + 1) else none
termination_by UInt32.size - n.toNat
decreasing_by
  rw [UInt32.toNat_add, UInt32.toNat_one, Nat.mod_eq_of_lt ‹_›]
  omega

/-- The first free one of a name, the name with `1` behind it, with `2`, and so on, as counted with
32 bits. -/
def countedName (g : ScopeGraph) (b : BindingId) (name : String) : Option String :=
  if g.isNameFree b name then some name else g.countedFrom b name 1

section

variable {g : ScopeGraph} {b : BindingId} {name : String} {k : Nat}

/-- The bounded search ends with the first free name if its bound does not come before. -/
theorem freeNameFrom_of_first (hfree : g.isNameFree b (suffixed name k) = true) {n bound : Nat}
    (hbefore : ∀ j, n ≤ j → j < k → g.isNameFree b (suffixed name j) = false) (hn : n ≤ k)
    (hbound : k ≤ n + bound) : g.freeNameFrom b name n bound = suffixed name k := by
  induction bound generalizing n with
  | zero =>
    obtain rfl : n = k := by omega
    rfl
  | succ bound ih =>
    rw [freeNameFrom]
    obtain rfl | hlt := Nat.eq_or_lt_of_le hn
    · rw [if_pos hfree]
    · rw [hbefore n (Nat.le_refl n) hlt, if_neg Bool.false_ne_true]
      exact ih (fun j hj => hbefore j (by omega)) hlt (by omega)

/-- The counter gets to the first free name if it can hold its number. -/
theorem countedFrom_of_first (hfree : g.isNameFree b (suffixed name k) = true) (hk : k < UInt32.size)
    {n : UInt32} (hbefore : ∀ j, n.toNat ≤ j → j < k → g.isNameFree b (suffixed name j) = false)
    (hn : n.toNat ≤ k) : g.countedFrom b name n = some (suffixed name k) := by
  induction hdistance : k - n.toNat generalizing n with
  | zero =>
    obtain hn : n.toNat = k := by omega
    rw [countedFrom, hn, if_pos hfree]
  | succ d ih =>
    have hlt : n.toNat + 1 < UInt32.size := by omega
    have hnext : (n + 1).toNat = n.toNat + 1 := by
      rw [UInt32.toNat_add, UInt32.toNat_one, Nat.mod_eq_of_lt hlt]
    rw [countedFrom, hbefore n.toNat (Nat.le_refl _) (by omega), if_neg Bool.false_ne_true, if_pos hlt]
    exact ih (fun j hj => hbefore j (by omega)) (by omega) (by omega)

/-- A search that starts with the name itself ends with the first free candidate. -/
theorem freeName_of_first (hfree : g.isNameFree b (candidate name k) = true)
    (hbefore : ∀ j < k, g.isNameFree b (candidate name j) = false)
    (hk : k ≤ g.bindings.size + g.globals.size) : g.freeName b name = candidate name k := by
  rw [freeName]
  cases k with
  | zero => exact if_pos hfree
  | succ k =>
    rw [show g.isNameFree b name = false from hbefore 0 (Nat.zero_lt_succ k), if_neg Bool.false_ne_true]
    refine freeNameFrom_of_first hfree (fun j hj hjk => ?_) (Nat.le_add_left 1 k) (by omega)
    obtain ⟨j, rfl⟩ := Nat.exists_eq_add_of_le' hj
    exact hbefore (j + 1) hjk

theorem countedName_of_first (hfree : g.isNameFree b (candidate name k) = true)
    (hbefore : ∀ j < k, g.isNameFree b (candidate name j) = false) (hk : k < UInt32.size) :
    g.countedName b name = some (candidate name k) := by
  rw [countedName]
  cases k with
  | zero => exact if_pos hfree
  | succ k =>
    rw [show g.isNameFree b name = false from hbefore 0 (Nat.zero_lt_succ k), if_neg Bool.false_ne_true]
    refine countedFrom_of_first hfree hk (fun j hj hjk => ?_) (Nat.le_add_left 1 k)
    obtain ⟨j, rfl⟩ := Nat.exists_eq_add_of_le' hj
    exact hbefore (j + 1) hjk

end

/-- **The free name of a binding is the first free candidate**, in every graph, whatever it was built
from and however its bindings were renamed: one of the candidates up to the number of bindings and
globals is free, and the first of them is the result. If that number is below the largest one of 32
bits, a counter of 32 bits does not overflow in the search, which needs no other bound then. -/
theorem freeName_first {g : ScopeGraph} {b : BindingId} (hb : b < g.bindings.size) (name : String) :
    ∃ k ≤ g.bindings.size + g.globals.size,
      g.freeName b name = candidate name k ∧
        g.isNameFree b (candidate name k) = true ∧
        (∀ j < k, g.isNameFree b (candidate name j) = false) ∧
        (g.bindings.size + g.globals.size + 1 < UInt32.size →
          g.countedName b name = some (g.freeName b name)) := by
  have hexists : ∃ k, g.isNameFree b (candidate name k) = true :=
    let ⟨k, _, hfree⟩ := exists_free hb name
    ⟨k, hfree⟩
  obtain ⟨k, hk, hkfree⟩ := exists_free hb name
  have hbound := Nat.le_trans (Nat.find_min' hexists hkfree) hk
  have hfree := Nat.find_spec hexists
  have hbefore : ∀ j < Nat.find hexists, g.isNameFree b (candidate name j) = false := fun j hj =>
    Bool.eq_false_iff.mpr (Nat.find_min hexists hj)
  have hname := freeName_of_first hfree hbefore hbound
  refine ⟨Nat.find hexists, hbound, hname, hfree, hbefore, fun hsmall => ?_⟩
  rw [hname]
  refine countedName_of_first hfree hbefore ?_
  omega

/-- `function h() {} var taken, other; taken2;`. -/
def takenUse : Program where
  body := Tree.blockOf [
    .functionStmt (.function false false (.some (.ident "h" (some 9))) .nil (Tree.blockOf [])),
    .varStmt (.varDecl .var (.ofList [
      .declarator (.nameBinder (.ident "taken" (some 21))) .none,
      .declarator (.nameBinder (.ident "other" (some 28))) .none])),
    .exprStmt (.identExpr (.ident "taken2" (some 35)))]

/-- Once `other` has become `taken1`, the first three candidates for `h`, the last of the bindings, are
taken. -/
theorem freeName_first_takenUse :
    let g := takenUse.scopeGraph.renameAll [(1, "taken1")]
    2 < g.bindings.size ∧ ∃ k ≤ g.bindings.size + g.globals.size,
      g.freeName 2 "taken" = candidate "taken" k ∧
        g.isNameFree 2 (candidate "taken" k) = true ∧
        (∀ j < k, g.isNameFree 2 (candidate "taken" j) = false) ∧
        (g.bindings.size + g.globals.size + 1 < UInt32.size →
          g.countedName 2 "taken" = some (g.freeName 2 "taken")) := by
  have hb : 2 < (takenUse.scopeGraph.renameAll [(1, "taken1")]).bindings.size := by decide +kernel
  exact ⟨hb, freeName_first hb "taken"⟩

example : (takenUse.scopeGraph.renameAll [(1, "taken1")]).freeName 2 "taken" = "taken3" := by
  decide +kernel

end Unminify.ScopeGraph
