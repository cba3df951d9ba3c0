import Mathlib.Data.List.Nodup
import Unminify.Proofs.Files.System

/-!
# Well-formed files

In well-formed files each entry has a name and stands once, in a directory. So the names in a directory are
those of its entries, each once (`WellFormed.mem_children`, `WellFormed.nodup_children`), and all places on the
way to an entry are directories (`WellFormed.directory_of_append`). A write keeps files well-formed
(`WellFormed.put`).
-/

namespace Unminify.FileSystem

open Path

/-- Each entry has a name, and stands once and in a directory. -/
structure WellFormed (fs : FileSystem) : Prop where
  named : ∀ x ∈ fs.entries, ∃ p name, x.1 = p ++ [name] ∧ IsName name
  nodup : (fs.entries.map (·.1)).Nodup
  parent : ∀ x ∈ fs.entries, fs.entry? x.1.dropLast = some .directory

variable {fs : FileSystem} {p : Place} {name : String} {rel : List String} {e : FileEntry}

theorem childAt_eq_some {q : Place} : childAt p q = some name ↔ q = p ++ [name] := by
  rw [childAt]
  constructor
  · intro h
    split at h
    next hp => rw [← hp, List.dropLast_append_getLast? name h]
    next => cases h
  · rintro rfl
    simp

theorem mem_children : name ∈ fs.children p ↔ ∃ e, (p ++ [name], e) ∈ fs.entries := by
  rw [children, List.mem_mergeSort, List.mem_filterMap]
  constructor
  · rintro ⟨⟨q, e⟩, hmem, hchild⟩
    exact ⟨e, childAt_eq_some.mp hchild ▸ hmem⟩
  · rintro ⟨e, hmem⟩
    exact ⟨_, hmem, childAt_eq_some.mpr rfl⟩

theorem entry?_isName (h : IsName name) (p : Place) : fs.entry? (p ++ [name]) = fs.entries.lookup (p ++ [name]) :=
  if_neg (by simp [isAbove_isName h])

theorem mem_entries_of_entry (h : IsName name) (hentry : fs.entry? (p ++ [name]) = some e) :
    (p ++ [name], e) ∈ fs.entries := by
  rw [entry?_isName h, List.lookup_eq_some_iff] at hentry
  obtain ⟨before, after, heq, -⟩ := hentry
  exact heq ▸ List.mem_append_right _ List.mem_cons_self

theorem WellFormed.isName_of_mem_children (h : fs.WellFormed) (hname : name ∈ fs.children p) : IsName name := by
  obtain ⟨e, hmem⟩ := mem_children.mp hname
  obtain ⟨q, other, heq, hother⟩ := h.named _ hmem
  obtain ⟨-, hlast⟩ := List.append_inj' heq rfl
  exact List.singleton_inj.mp hlast ▸ hother

theorem WellFormed.mem_children (h : fs.WellFormed) :
    name ∈ fs.children p ↔ IsName name ∧ ∃ e, fs.entry? (p ++ [name]) = some e := by
  constructor
  · intro hname
    have hisName := h.isName_of_mem_children hname
    obtain ⟨e, hmem⟩ := FileSystem.mem_children.mp hname
    refine ⟨hisName, Option.isSome_iff_exists.mp ?_⟩
    rw [entry?_isName hisName]
    exact List.lookup_isSome_iff.mpr ⟨_, hmem, beq_self_eq_true _⟩
  · rintro ⟨hisName, e, hentry⟩
    exact FileSystem.mem_children.mpr ⟨e, mem_entries_of_entry hisName hentry⟩

theorem WellFormed.nodup_children (h : fs.WellFormed) (p : Place) : (fs.children p).Nodup := by
  have hchildren : fs.children p = ((fs.entries.map (·.1)).filterMap (childAt p)).mergeSort fun a b => !(b < a) := by
    rw [List.filterMap_map]
    rfl
  rw [hchildren, (List.mergeSort_perm _ _).nodup_iff]
  refine h.nodup.filterMap fun q q' name hq hq' => ?_
  rw [childAt_eq_some.mp hq, childAt_eq_some.mp hq']

/-- What an entry stands in is a directory. -/
theorem WellFormed.directory_of_append_singleton (h : fs.WellFormed) (hname : IsName name)
    (hentry : fs.entry? (p ++ [name]) = some e) : fs.entry? p = some .directory := by
  have hparent := h.parent _ (mem_entries_of_entry hname hentry)
  rwa [List.dropLast_concat] at hparent

/-- All places on the way to an entry are directories. -/
theorem WellFormed.directory_of_append (h : fs.WellFormed) (hrel : ∀ x ∈ rel, IsName x) (hne : rel ≠ [])
    (hentry : fs.entry? (p ++ rel) = some e) : fs.entry? p = some .directory := by
  induction rel using List.reverseRecOn generalizing e with
  | nil => exact absurd rfl hne
  | append_singleton rel name ih =>
    obtain ⟨hrel, hname⟩ := List.forall_mem_append.mp hrel
    rw [← List.append_assoc] at hentry
    have hparent := h.directory_of_append_singleton (hname name List.mem_cons_self) hentry
    by_cases hnil : rel = []
    · rwa [hnil, List.append_nil] at hparent
    · exact ih hrel hnil hparent

/-! ## Keeping files well-formed -/

theorem wellFormed_empty : WellFormed {} := ⟨nofun, .nil, nofun⟩

/-- An entry is put into a directory; it does not replace one by a file. -/
theorem WellFormed.put (h : fs.WellFormed) (hname : IsName name) (hp : fs.entry? p = some .directory)
    (hkeep : fs.entry? (p ++ [name]) = some .directory → e = .directory) : (fs.put (p ++ [name]) e).WellFormed := by
  have hput (q : Place) := entry?_put fs (isAbove_isName hname p) e q
  have hdirectory (q : Place) (hq : fs.entry? q = some .directory) :
      entry? (fs.put (p ++ [name]) e) q = some .directory := by
    rw [hput]
    split
    next heq => rw [hkeep (heq ▸ hq)]
    next => exact hq
  constructor
  case named =>
    intro x hx
    rcases List.mem_append.mp hx with hx | hx
    · exact h.named x (List.mem_filter.mp hx).1
    · obtain rfl := List.mem_singleton.mp hx
      exact ⟨p, name, rfl, hname⟩
  case nodup =>
    rw [FileSystem.put, List.map_append, List.map_singleton]
    refine List.nodup_append.mpr ⟨(List.filter_sublist.map _).nodup h.nodup, List.nodup_singleton _, ?_⟩
    rintro q hq _ hlast rfl
    obtain ⟨x, hx, rfl⟩ := List.mem_map.mp hq
    have hne := (List.mem_filter.mp hx).2
    rw [List.mem_singleton.mp hlast] at hne
    simp at hne
  case parent =>
    intro x hx
    rcases List.mem_append.mp hx with hx | hx
    · exact hdirectory _ (h.parent x (List.mem_filter.mp hx).1)
    · obtain rfl := List.mem_singleton.mp hx
      rw [List.dropLast_concat]
      exact hdirectory p hp

end Unminify.FileSystem
