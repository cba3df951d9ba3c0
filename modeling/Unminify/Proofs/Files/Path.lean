import Unminify.Files.Path

/-!
# Parts of paths

What joining paths and replacing an extension do to the parts of a path, to the names among them, and to
where a path starts. Joining keeps the names of both paths (`names_join`), so a path to which names are joined
has these behind its own (`names_under`), and another extension changes the last part only
(`parts_withExtension`).
-/

namespace Unminify.Path

/-- A name that an entry of a directory can have. -/
structure IsName (name : String) : Prop where
  ne_empty : name ≠ ""
  ne_here : name ≠ "."
  ne_up : name ≠ ".."
  no_slash : '/' ∉ name.toList

/-- The parts that name something. -/
def naming (parts : List String) : List String := parts.filter fun p => p != "" && p != "."

/-- The path that names lead to from another one. -/
def under (path : String) (names : List String) : String := names.foldl join path

variable {path more name ext : String} {before rel : List String}

/-! ## Parts -/

theorem parts_slash (path more : String) : parts (path ++ "/" ++ more) = parts path ++ parts more := by
  have hlist : (path ++ "/" ++ more).toList = path.toList ++ '/' :: more.toList := by
    simp [String.toList_append]
  rw [parts, hlist, List.splitOn_append_cons_self, List.map_append]
  rfl

theorem parts_of_no_slash (h : '/' ∉ name.toList) : parts name = [name] := by
  rw [parts, List.splitOn_eq_singleton h, List.map_singleton, String.ofList_toList]

theorem not_mem_of_mem_splitOn {c : Char} {cs : List Char} : ∀ part ∈ cs.splitOn c, c ∉ part := by
  induction cs with
  | nil => simp
  | cons d cs ih =>
    rw [List.splitOn_cons_eq_if_modifyHead]
    split
    · simpa using ih
    next hd =>
      obtain ⟨first, rest, heq⟩ := List.exists_cons_of_ne_nil (List.splitOn_ne_nil c cs)
      rw [heq] at ih ⊢
      rw [List.modifyHead_cons]
      intro part hpart
      rcases List.mem_cons.mp hpart with rfl | hpart
      · have hfirst := ih first List.mem_cons_self
        simp only [List.mem_cons, not_or]
        exact ⟨fun h => hd (beq_iff_eq.mpr h.symm), hfirst⟩
      · exact ih part (List.mem_cons_of_mem _ hpart)

theorem no_slash_of_mem_parts (h : name ∈ parts path) : '/' ∉ name.toList := by
  obtain ⟨part, hpart, rfl⟩ := List.mem_map.mp h
  rw [String.toList_ofList]
  exact not_mem_of_mem_splitOn part hpart

theorem parts_intercalate (h : ∀ part ∈ before, '/' ∉ part.toList) (hne : before ≠ []) :
    parts ("/".intercalate before) = before := by
  have hparts : ∀ part ∈ before.map String.toList, '/' ∉ part := by
    intro part hpart
    obtain ⟨x, hx, rfl⟩ := List.mem_map.mp hpart
    exact h x hx
  have hsplit := List.splitOn_intercalate '/' hparts (by simpa using hne)
  rw [parts, String.toList_intercalate, show "/".toList = ['/'] from rfl, hsplit, List.map_map]
  simp [Function.comp_def]

/-- A path is absolute if something stands behind an empty first part. -/
theorem isAbsolute_iff : isAbsolute path = true ↔ ∃ part rest, parts path = "" :: part :: rest := by
  obtain ⟨cs, rfl⟩ : ∃ cs, path = String.ofList cs := ⟨path.toList, String.ofList_toList.symm⟩
  rw [isAbsolute, parts, String.toList_ofList]
  cases cs with
  | nil => simp
  | cons c cs =>
    obtain ⟨first, rest, heq⟩ := List.exists_cons_of_ne_nil (List.splitOn_ne_nil '/' cs)
    rw [List.splitOn_cons_eq_if_modifyHead, heq]
    by_cases hc : c = '/'
    · simp [hc]
    · simp [hc]

/-! ## Names -/

theorem IsName.isAbsolute_eq (h : IsName name) : isAbsolute name = false := by
  rw [isAbsolute, beq_eq_false_iff_ne]
  exact fun hhead => h.no_slash (List.mem_of_mem_head? hhead)

theorem names_eq (path : String) : names path = naming (parts path) := rfl

theorem naming_append (parts more : List String) : naming (parts ++ more) = naming parts ++ naming more :=
  List.filter_append ..

theorem naming_isName (h : IsName name) : naming [name] = [name] :=
  List.filter_cons_of_pos (by simp [h.ne_empty, h.ne_here])

theorem names_of_isName (h : IsName name) : names name = [name] := by
  rw [names_eq, parts_of_no_slash h.no_slash, naming_isName h]

theorem ne_empty_of_parts (hparts : parts path = before ++ [name]) (hname : IsName name) : path ≠ "" := by
  rintro rfl
  have hlast := congrArg List.getLast? hparts
  rw [List.getLast?_concat] at hlast
  exact hname.ne_empty (Option.some.inj hlast).symm

/-- What is left of a name without its extension is the start of it, and something. -/
theorem cutExtension_fst (hne : name ≠ "") :
    (cutExtension name).1 ≠ "" ∧ (cutExtension name).1.toList <+: name.toList := by
  rw [cutExtension]
  split
  next _ stem heq =>
    split
    · exact ⟨hne, List.prefix_rfl⟩
    next hstem =>
      have hsuffix : stem <:+ name.toList.reverse :=
        ((List.suffix_cons _ _).trans (heq ▸ List.dropWhile_suffix _))
      refine ⟨fun h => hstem ?_, ?_⟩
      · have hempty : stem = [] := by simpa using congrArg String.toList h
        simp [hempty]
      · rw [String.toList_ofList, ← List.reverse_suffix, List.reverse_reverse]
        exact hsuffix
  · exact ⟨hne, List.prefix_rfl⟩

/-- A name with an extension is too long for a special one. -/
theorem ne_of_length_lt {stem other : String} (hstem : stem ≠ "") (hext : ext ≠ "") (hother : other.toList.length < 3) :
    stem ++ "." ++ ext ≠ other := by
  rintro rfl
  have hstem := List.length_pos_iff.mpr fun h => hstem (String.toList_eq_nil_iff.mp h)
  have hext := List.length_pos_iff.mpr fun h => hext (String.toList_eq_nil_iff.mp h)
  simp only [String.toList_append, List.length_append, show ".".toList.length = 1 from rfl] at hother
  omega

theorem cutExtension_append {stem : String} (hstem : stem ≠ "") (hne : ext ≠ "") (h : '.' ∉ ext.toList) :
    cutExtension (stem ++ "." ++ ext) = (stem, some ext) := by
  have hreverse : (stem ++ "." ++ ext).toList.reverse = ext.toList.reverse ++ '.' :: stem.toList.reverse := by
    simp [String.toList_append]
  have hext : ∀ c ∈ ext.toList.reverse, (c != '.') = true := by
    intro c hc
    exact bne_iff_ne.mpr fun heq => h (heq ▸ List.mem_reverse.mp hc)
  have hdrop : (ext.toList.reverse ++ '.' :: stem.toList.reverse).dropWhile (· != '.') = '.' :: stem.toList.reverse := by
    rw [List.dropWhile_append_of_pos hext, List.dropWhile_cons_of_neg (by simp)]
  have htake : (ext.toList.reverse ++ '.' :: stem.toList.reverse).takeWhile (· != '.') = ext.toList.reverse := by
    rw [List.takeWhile_append_of_pos hext, List.takeWhile_cons_of_neg (by simp), List.append_nil]
  have hfilled : stem.toList.reverse.isEmpty = false := by simpa using hstem
  have hup : (stem ++ "." ++ ext == "..") = false := beq_eq_false_iff_ne.mpr (ne_of_length_lt hstem hne (by decide))
  simp only [cutExtension, hreverse, hdrop, htake, hfilled, hup, Bool.or_self, Bool.false_eq_true, if_false,
    List.reverse_reverse, String.ofList_toList]

/-- A name is one with another extension, too. -/
theorem IsName.withExtension (h : IsName name) (hslash : '/' ∉ ext.toList) (hne : ext ≠ "") :
    IsName ((cutExtension name).1 ++ "." ++ ext) := by
  obtain ⟨hstem, hfront⟩ := cutExtension_fst h.ne_empty
  refine ⟨ne_of_length_lt hstem hne (by decide), ne_of_length_lt hstem hne (by decide),
    ne_of_length_lt hstem hne (by decide), ?_⟩
  simp only [String.toList_append, List.mem_append, not_or]
  exact ⟨⟨fun hmem => h.no_slash (hfront.subset hmem), by decide⟩, hslash⟩

/-! ## Joining -/

/-- What joining paths does to their parts. An empty last part of the first path goes. -/
theorem parts_join (path : String) (h : isAbsolute more = false) :
    ∃ before, parts (join path more) = before ++ parts more ∧
      (path = "" ∧ before = [] ∨ path ≠ "" ∧ (parts path = before ∨ parts path = before ++ [""])) := by
  by_cases hpath : path = ""
  · subst hpath
    exact ⟨[], by simp [join], .inl ⟨rfl, rfl⟩⟩
  have hempty : path.isEmpty = false := by simpa using hpath
  by_cases hlast : path.toList.getLast? = some '/'
  · obtain ⟨cs, hcs⟩ := List.getLast?_eq_some_iff.mp hlast
    have heq : path = String.ofList cs ++ "/" ++ "" := by
      rw [← String.toList_inj, hcs]
      simp [String.toList_append]
    refine ⟨parts (String.ofList cs), ?_, .inr ⟨hpath, .inr ?_⟩⟩
    · rw [join, h, hempty, hlast, Bool.or_self, if_neg Bool.false_ne_true, if_pos (by simp), ← parts_slash]
      exact congrArg (fun p => parts (p ++ more)) (heq.trans (String.append_empty ..))
    · rw [heq, parts_slash]
      rfl
  · refine ⟨parts path, ?_, .inr ⟨hpath, .inl rfl⟩⟩
    rw [join, h, hempty, Bool.or_self, if_neg Bool.false_ne_true, if_neg (by simpa using hlast), parts_slash]

theorem names_join (path : String) (h : isAbsolute more = false) : names (join path more) = names path ++ names more := by
  obtain ⟨before, hparts, ⟨rfl, rfl⟩ | ⟨-, hbefore | hbefore⟩⟩ := parts_join path h
  all_goals simp only [names_eq, hparts, naming_append]
  · rfl
  · rw [hbefore]
  · rw [hbefore, naming_append]
    exact congrArg (· ++ _) (List.append_nil _).symm

theorem isAbsolute_join (path : String) (h : isAbsolute more = false) : isAbsolute (join path more) = isAbsolute path := by
  by_cases hpath : path = ""
  · subst hpath
    rw [show join "" more = more by simp [join], h]
    rfl
  have hempty : path.isEmpty = false := by simpa using hpath
  obtain ⟨c, cs, hc⟩ := List.exists_cons_of_ne_nil fun h => hpath (String.toList_eq_nil_iff.mp h)
  rw [join, h, hempty, Bool.or_self, if_neg Bool.false_ne_true]
  split <;> simp [isAbsolute, String.toList_append, hc]

/-- The names of a path behind another one. -/
theorem under_append (path name : String) (rel : List String) :
    under path (rel ++ [name]) = join (under path rel) name := by
  rw [under, List.foldl_append]
  rfl

theorem isAbsolute_under (path : String) (h : ∀ name ∈ rel, IsName name) : isAbsolute (under path rel) = isAbsolute path := by
  induction rel generalizing path with
  | nil => rfl
  | cons name rel ih =>
    have hname := (h name List.mem_cons_self).isAbsolute_eq
    exact (ih (join path name) fun x hx => h x (List.mem_cons_of_mem _ hx)).trans (isAbsolute_join path hname)

theorem names_under (path : String) (h : ∀ name ∈ rel, IsName name) : names (under path rel) = names path ++ rel := by
  induction rel generalizing path with
  | nil => exact (List.append_nil _).symm
  | cons name rel ih =>
    have hname := h name List.mem_cons_self
    rw [under, List.foldl_cons, ← under, ih (join path name) fun x hx => h x (List.mem_cons_of_mem _ hx),
      names_join path hname.isAbsolute_eq, names_of_isName hname, List.append_assoc, List.singleton_append]

/-- A path that has a name behind it ends in that name. -/
theorem parts_under (path : String) (h : ∀ x ∈ rel ++ [name], IsName x) :
    ∃ before, parts (under path (rel ++ [name])) = before ++ [name] := by
  have hname := h name List.mem_concat_self
  obtain ⟨before, hparts, -⟩ := parts_join (under path rel) hname.isAbsolute_eq
  exact ⟨before, by rw [under_append, hparts, parts_of_no_slash hname.no_slash]⟩

/-! ## Extensions -/

theorem parts_withExtension (hparts : parts path = before ++ [name])
    (h : '/' ∉ ((cutExtension name).1 ++ "." ++ ext).toList) :
    parts (withExtension path ext) = before ++ [(cutExtension name).1 ++ "." ++ ext] := by
  have heq : withExtension path ext = "/".intercalate (before ++ [(cutExtension name).1 ++ "." ++ ext]) := by
    rw [withExtension, hparts, List.reverse_concat]
    simp
  rw [heq]
  refine parts_intercalate (fun part hpart => ?_) (by simp)
  rcases List.mem_append.mp hpart with hpart | hpart
  · have hmem : part ∈ parts path := hparts ▸ List.mem_append_left _ hpart
    exact no_slash_of_mem_parts hmem
  · exact List.mem_singleton.mp hpart ▸ h

theorem isAbsolute_withExtension (hparts : parts path = before ++ [name])
    (h : '/' ∉ ((cutExtension name).1 ++ "." ++ ext).toList) :
    isAbsolute (withExtension path ext) = isAbsolute path := by
  rw [Bool.eq_iff_iff, isAbsolute_iff, isAbsolute_iff, parts_withExtension hparts h, hparts]
  match before with
  | [] => simp
  | [part] => simp
  | part :: part' :: before => simp

end Unminify.Path
