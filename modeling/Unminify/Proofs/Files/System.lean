import Mathlib.Data.List.Infix
import Unminify.Files.System
import Unminify.Proofs.Files.Path

/-!
# Files that are written one after the other

A path leads to a place (`placeOf`) by way of directories (`way`), and these are made when a file is written
there. A write changes nothing but that: the file stands at its place, and on its way there may be
directories where nothing stood (`exists_writeText`).

So files that do not stand in each other's way can all be written, in any order, and each of them is there in
the end (`Outputs`, `Outputs.write`).
-/

namespace Unminify

namespace Path

/-- Where a path starts. -/
def origin (path : String) : Place := if isAbsolute path then ["/"] else []

/-- A path that ends in the name of an entry. -/
def Named (path : String) : Prop := ∃ before name, parts path = before ++ [name] ∧ IsName name

end Path

namespace FileSystem

open Path

/-- The place that names lead to from a place. -/
def lead (p : Place) (names : List String) : Place := names.foldl enter p

/-- The places that names lead through from a place, and to. -/
def passed : Place → List String → List Place
  | _, [] => []
  | p, name :: rest => enter p name :: passed (enter p name) rest

/-- The place that a path leads to. -/
def placeOf (path : String) : Place := lead (origin path) (names path)

/-- The places on the way to it. -/
def way (path : String) : List Place := passed (origin path) (names path).dropLast

/-- The name by which something at a place stands in a directory. -/
def childAt (p q : Place) : Option String := if q.dropLast = p then q.getLast? else none

/-- The names in the directory at a place. -/
def children (fs : FileSystem) (p : Place) : List String :=
  (fs.entries.filterMap fun (q, _) => childAt p q).mergeSort fun a b => !(b < a)

variable {fs fs₀ fs' : FileSystem} {p q : Place} {path name text : String} {names parts rel : List String}

/-! ## Places -/

theorem enter_isName (h : IsName name) (p : Place) : enter p name = p ++ [name] := by
  simp [enter, h.ne_empty, h.ne_here, h.ne_up]

theorem lead_append (p : Place) (names rel : List String) : lead p (names ++ rel) = lead (lead p names) rel :=
  List.foldl_append

theorem lead_isName (p : Place) (h : ∀ name ∈ rel, IsName name) : lead p rel = p ++ rel := by
  induction rel generalizing p with
  | nil => exact (List.append_nil p).symm
  | cons name rel ih =>
    rw [lead, List.foldl_cons, ← lead, enter_isName (h name List.mem_cons_self),
      ih _ fun x hx => h x (List.mem_cons_of_mem _ hx), List.append_assoc, List.singleton_append]

/-- Parts that name nothing lead nowhere. -/
theorem lead_naming (p : Place) (parts : List String) : lead p (naming parts) = lead p parts := by
  induction parts generalizing p with
  | nil => rfl
  | cons part parts ih =>
    rw [naming, List.filter_cons, ← naming]
    split
    · exact ih (enter p part)
    next hpart =>
      have hstay : enter p part = p := by
        rw [enter, if_pos]
        simp only [Bool.and_eq_true, bne_iff_ne, not_and_or, not_not] at hpart
        rcases hpart with rfl | rfl <;> simp
      rw [ih, lead, lead, List.foldl_cons, hstay]

theorem passed_append (p : Place) (names rel : List String) :
    passed p (names ++ rel) = passed p names ++ passed (lead p names) rel := by
  induction names generalizing p with
  | nil => rfl
  | cons name names ih => exact congrArg (enter p name :: ·) (ih (enter p name))

theorem mem_passed : q ∈ passed p names ↔ ∃ before, before <+: names ∧ before ≠ [] ∧ lead p before = q := by
  induction names generalizing p with
  | nil => simp [passed, List.prefix_nil]
  | cons name names ih =>
    rw [passed, List.mem_cons, ih]
    constructor
    · rintro (rfl | ⟨before, hfront, -, hlead⟩)
      · exact ⟨[name], List.cons_prefix_cons.mpr ⟨rfl, List.nil_prefix⟩, by simp, rfl⟩
      · exact ⟨name :: before, List.cons_prefix_cons.mpr ⟨rfl, hfront⟩, by simp, hlead⟩
    · rintro ⟨before, hfront, hne, hlead⟩
      obtain ⟨part, before, rfl⟩ := List.exists_cons_of_ne_nil hne
      obtain ⟨rfl, hbefore⟩ := List.cons_prefix_cons.mp hfront
      by_cases hnil : before = []
      · subst hnil
        exact .inl hlead.symm
      · exact .inr ⟨before, hbefore, hnil, hlead⟩

theorem isAbove_isName (h : IsName name) (p : Place) : isAbove (p ++ [name]) = false := by
  have hslash : name ≠ "/" := fun heq => h.no_slash (heq ▸ by decide)
  simp [isAbove, hslash, h.ne_up]

theorem isAbove_origin (path : String) : isAbove (origin path) = true := by
  rw [origin]
  split <;> rfl

/-! ## Entries -/

theorem entry?_of_isAbove (fs : FileSystem) (h : isAbove p = true) : fs.entry? p = some .directory := if_pos h

theorem lookup_filter_ne {entries : List (Place × FileEntry)} :
    (entries.filter (·.1 != p)).lookup q = if q = p then none else entries.lookup q := by
  induction entries with
  | nil => simp
  | cons x entries ih =>
    rw [List.filter_cons, List.lookup_cons]
    split
    · rw [List.lookup_cons, ih]
      grind
    · rw [ih]
      grind

theorem entry?_put (fs : FileSystem) (h : isAbove p = false) (e : FileEntry) (q : Place) :
    entry? (fs.put p e) q = if q = p then some e else fs.entry? q := by
  unfold entry? put
  rw [List.lookup_append, lookup_filter_ne, List.lookup_cons, List.lookup_nil]
  by_cases hq : q = p
  · subst hq
    simp [h]
  · have hne : (q == p) = false := by simpa using hq
    simp [hq, hne]

theorem children_put (e : FileEntry) (h : p.dropLast ≠ q) : (fs.put p e).children q = fs.children q := by
  have hfilter : (fs.entries.filter (·.1 != p)).filterMap (fun (x : Place × FileEntry) => childAt q x.1) =
      fs.entries.filterMap fun x => childAt q x.1 := by
    rw [List.filterMap_filter]
    refine List.filterMap_congr fun x _ => ?_
    by_cases hx : x.1 = p
    · simp [childAt, hx, h]
    · simp [hx]
  rw [children, put, List.filterMap_append, hfilter]
  simp [h, children, childAt]

theorem requireDirectory_eq_ok : fs.requireDirectory p = .ok () ↔ fs.entry? p = some .directory := by
  rw [requireDirectory]
  split <;> simp_all

theorem requireDirectory_isOk : (fs.requireDirectory p).isOk = true ↔ fs.entry? p = some .directory := by
  rw [← requireDirectory_eq_ok]
  cases fs.requireDirectory p with
  | error e => exact ⟨nofun, nofun⟩
  | ok _ => exact iff_of_true rfl rfl

/-! ## Paths that lead to places -/

theorem follow_cons (fs : FileSystem) (p : Place) (part : String) (rest : List String) :
    fs.follow p (part :: rest) = fs.requireDirectory p >>= fun _ => fs.follow (enter p part) rest := rfl

/-- Parts of a path lead to a place if all places on the way are directories. -/
theorem follow_eq_ok : fs.follow p parts = .ok q ↔
    lead p parts = q ∧ ∀ before, before <+: parts → before ≠ parts → fs.entry? (lead p before) = some .directory := by
  induction parts generalizing p with
  | nil =>
    simp only [follow, Except.ok.injEq, List.prefix_nil]
    exact ⟨fun h => ⟨h, fun before h hne => absurd h hne⟩, fun h => h.1⟩
  | cons part rest ih =>
    have hcons : fs.follow p (part :: rest) = .ok q ↔
        fs.entry? p = some .directory ∧ fs.follow (enter p part) rest = .ok q := by
      rw [follow_cons, ← requireDirectory_eq_ok]
      cases fs.requireDirectory p with
      | error e => exact ⟨nofun, fun h => nomatch h.1⟩
      | ok _ => exact ⟨fun h => ⟨rfl, h⟩, fun h => h.2⟩
    rw [hcons, ih]
    constructor
    · rintro ⟨hp, hlead, hrest⟩
      refine ⟨hlead, fun before hbefore hne => ?_⟩
      cases before with
      | nil => exact hp
      | cons x before =>
        obtain ⟨rfl, hfront⟩ := List.cons_prefix_cons.mp hbefore
        exact hrest before hfront fun h => hne (h ▸ rfl)
    · rintro ⟨hlead, hdirs⟩
      refine ⟨hdirs [] List.nil_prefix (by simp), hlead, fun before hbefore hne => ?_⟩
      exact hdirs (part :: before) (List.cons_prefix_cons.mpr ⟨rfl, hbefore⟩) (by simpa using hne)

theorem resolve_eq_ok : fs.resolve path = .ok q ↔ path ≠ "" ∧ placeOf path = q ∧
    ∀ before, before <+: Path.parts path → before ≠ Path.parts path →
      fs.entry? (lead (origin path) before) = some .directory := by
  rw [resolve, placeOf, names_eq, lead_naming, ← follow_eq_ok]
  by_cases hpath : path = ""
  · simp [hpath]
  · rw [if_neg (by simpa using hpath)]
    exact ⟨fun h => ⟨hpath, h⟩, fun h => h.2⟩

theorem placeOf_of_resolve (h : fs.resolve path = .ok q) : placeOf path = q := (resolve_eq_ok.mp h).2.1

/-- A path leads to the same place as long as directories stay. -/
theorem resolve_mono (h : fs.resolve path = .ok q)
    (hdirs : ∀ p, fs.entry? p = some .directory → fs'.entry? p = some .directory) : fs'.resolve path = .ok q := by
  obtain ⟨hpath, hplace, hbefore⟩ := resolve_eq_ok.mp h
  exact resolve_eq_ok.mpr ⟨hpath, hplace, fun before h hne => hdirs _ (hbefore before h hne)⟩

/-- A name behind the path of a directory leads into it. -/
theorem resolve_join (h : fs.resolve path = .ok p) (hp : fs.entry? p = some .directory) (hname : IsName name) :
    fs.resolve (join path name) = .ok (p ++ [name]) := by
  obtain ⟨hpath, rfl, hdirs⟩ := resolve_eq_ok.mp h
  obtain ⟨before, hparts, ⟨rfl, rfl⟩ | ⟨-, hbefore⟩⟩ := parts_join path hname.isAbsolute_eq
  · exact absurd rfl hpath
  rw [parts_of_no_slash hname.no_slash] at hparts
  have horigin : origin (join path name) = origin path := by
    rw [origin, isAbsolute_join path hname.isAbsolute_eq, ← origin]
  have hlead : lead (origin path) before = placeOf path := by
    rw [placeOf, names_eq, lead_naming]
    rcases hbefore with hbefore | hbefore
    · rw [hbefore]
    · rw [hbefore, lead_append]
      simp [lead, enter]
  have hbefore (b : List String) (hb : b <+: before) : fs.entry? (lead (origin path) b) = some .directory := by
    rcases hbefore with hbefore | hbefore
    · by_cases heq : b = before
      · rw [heq, hlead, hp]
      · exact hdirs b (hbefore ▸ hb) (hbefore ▸ heq)
    · refine hdirs b (hbefore ▸ hb.trans (List.prefix_append _ _)) fun heq => ?_
      rw [heq, hbefore] at hb
      exact absurd hb.length_le (by simp)
  refine resolve_eq_ok.mpr ⟨ne_empty_of_parts hparts hname, ?_, fun b hb hne => ?_⟩
  · rw [placeOf, names_eq, lead_naming, horigin, hparts, lead_append, hlead]
    exact enter_isName hname _
  · rw [hparts] at hb hne
    rw [horigin]
    exact hbefore b ((List.prefix_concat_iff.mp hb).resolve_left hne)

theorem list_of_resolve (h : fs.resolve path = .ok p) : fs.list path = fs.children p := by
  rw [list, h]
  rfl

theorem isDirectory_of_resolve (h : fs.resolve path = .ok p) :
    fs.isDirectory path = true ↔ fs.entry? p = some .directory := by
  rw [isDirectory, h]
  exact requireDirectory_isOk

theorem readText_congr (h : fs.resolve path = .ok p) (h' : fs'.resolve path = .ok p) (hp : fs'.entry? p = fs.entry? p) :
    fs'.readText path = fs.readText path := by
  rw [readText, readText, h, h']
  dsimp only [bind, Except.bind]
  rw [hp]

theorem readText_of_resolve (h : fs.resolve path = .ok p) (hp : fs.entry? p = some (.file text.toUTF8)) :
    fs.readText path = .ok text := by
  have htext : String.fromUTF8? text.toUTF8 = some text := by
    rw [String.fromUTF8?, String.toUTF8_eq_toByteArray, dif_pos text.isValidUTF8]
    rfl
  rw [readText, h]
  dsimp only [bind, Except.bind]
  rw [hp]
  dsimp only
  rw [htext]
  rfl

/-! ## Making directories -/

/-- What stands at a place is what stood there before, or a directory has been made where nothing stood. -/
def Kept (made : Place → Prop) (fs fs' : FileSystem) (q : Place) : Prop :=
  fs'.entry? q = fs.entry? q ∨ made q ∧ fs.entry? q = none ∧ fs'.entry? q = some .directory

/-- Nothing has changed but that directories have been made, all of them among given places. -/
structure Grown (places : List Place) (fs fs' : FileSystem) : Prop where
  entry : ∀ q, Kept (· ∈ places) fs fs' q
  children : ∀ p, (∀ q ∈ places, q.dropLast ≠ p) → fs'.children p = fs.children p

section

variable {made also : Place → Prop} {fs₁ : FileSystem} {places more : List Place}

theorem Kept.directory (h : Kept made fs fs' q) (hq : fs.entry? q = some .directory) :
    fs'.entry? q = some .directory := by
  rcases h with heq | ⟨-, -, heq⟩
  · exact heq.trans hq
  · exact heq

theorem Kept.ne_file (h : Kept made fs fs' q) (hq : ∀ bytes, fs.entry? q ≠ some (.file bytes)) :
    ∀ bytes, fs'.entry? q ≠ some (.file bytes) := by
  intro bytes
  rcases h with heq | ⟨-, -, heq⟩
  · exact heq ▸ hq bytes
  · rw [heq]
    exact nofun

theorem Kept.ne_directory (h : Kept made fs fs' q) (hmade : ¬ made q) (hq : fs.entry? q ≠ some .directory) :
    fs'.entry? q ≠ some .directory := by
  rcases h with heq | ⟨hq, -⟩
  · exact heq ▸ hq
  · exact absurd hq hmade

theorem Kept.imp (h : Kept made fs fs' q) (himp : made q → also q) : Kept also fs fs' q :=
  Or.imp_right (fun hq => ⟨himp hq.1, hq.2⟩) h

theorem Kept.trans (h : Kept made fs fs₁ q) (h' : Kept made fs₁ fs' q) : Kept made fs fs' q := by
  rcases h' with heq | ⟨hmade, hnone, hdir⟩
  · exact Or.imp heq.trans (fun hq => ⟨hq.1, hq.2.1, heq.trans hq.2.2⟩) h
  · rcases h with heq | ⟨-, -, hdir'⟩
    · exact .inr ⟨hmade, heq ▸ hnone, hdir⟩
    · rw [hnone] at hdir'
      cases hdir'

theorem Grown.refl (places : List Place) (fs : FileSystem) : Grown places fs fs :=
  ⟨fun _ => .inl rfl, fun _ _ => rfl⟩

theorem Grown.trans (h : Grown places fs fs₁) (h' : Grown more fs₁ fs') : Grown (places ++ more) fs fs' where
  entry q := ((h.entry q).imp (List.mem_append_left _)).trans ((h'.entry q).imp (List.mem_append_right _))
  children p hp := by
    obtain ⟨hplaces, hmore⟩ := List.forall_mem_append.mp hp
    exact (h'.children p hmore).trans (h.children p hplaces)

theorem grown_put (h : fs.entry? p = none) :
    Grown [p] fs (fs.put p .directory) ∧ entry? (fs.put p .directory) p = some .directory := by
  have habove : isAbove p = false := by
    by_contra habove
    rw [entry?_of_isAbove fs (by simpa using habove)] at h
    cases h
  have hput := entry?_put fs habove .directory
  refine ⟨⟨fun q => ?_, fun q hq => children_put _ (hq p List.mem_cons_self)⟩, (hput p).trans (if_pos rfl)⟩
  by_cases hq : q = p
  · subst hq
    exact .inr ⟨List.mem_cons_self, h, (hput q).trans (if_pos rfl)⟩
  · exact .inl ((hput q).trans (if_neg hq))

end

/-- If no file is in the way, directories can be made. -/
theorem exists_makeDirectories (h : ∀ q ∈ passed p names, ∀ bytes, fs.entry? q ≠ some (.file bytes)) :
    ∃ fs', fs.makeDirectories p names = .ok fs' ∧ Grown (passed p names) fs fs' ∧
      ∀ q ∈ passed p names, fs'.entry? q = some .directory := by
  induction names generalizing p fs with
  | nil => exact ⟨fs, rfl, .refl _ fs, nofun⟩
  | cons name rest ih =>
    obtain ⟨hhere, hrest⟩ := List.forall_mem_cons.mp h
    obtain ⟨fs₁, hmake₁, hgrown₁, hdir₁⟩ : ∃ fs₁, fs.makeDirectories p (name :: rest) =
        fs₁.makeDirectories (enter p name) rest ∧ Grown [enter p name] fs fs₁ ∧
        fs₁.entry? (enter p name) = some .directory := by
      cases hentry : fs.entry? (enter p name) with
      | none =>
        refine ⟨fs.put (enter p name) .directory, ?_, grown_put hentry⟩
        rw [makeDirectories]
        simp only [hentry]
      | some e =>
        cases e with
        | file bytes => exact absurd hentry (hhere bytes)
        | directory =>
          refine ⟨fs, ?_, .refl _ fs, hentry⟩
          rw [makeDirectories]
          simp only [hentry]
    obtain ⟨fs', hmake, hgrown, hdirs⟩ := ih fun q hq => (hgrown₁.entry q).ne_file (hrest q hq)
    exact ⟨fs', hmake₁.trans hmake, hgrown₁.trans hgrown,
      List.forall_mem_cons.mpr ⟨(hgrown.entry _).directory hdir₁, hdirs⟩⟩

/-! ## Writing a file -/

/-- A file can be written to a path: no file is in the way, and no directory takes its place. -/
structure Clear (fs : FileSystem) (path : String) : Prop where
  way : ∀ q ∈ way path, ∀ bytes, fs.entry? q ≠ some (.file bytes)
  place : fs.entry? (placeOf path) ≠ some .directory
  apart : placeOf path ∉ FileSystem.way path

/-- A file has been written. -/
structure Written (path text : String) (fs fs' : FileSystem) : Prop where
  resolve : fs'.resolve path = .ok (placeOf path)
  file : fs'.entry? (placeOf path) = some (.file text.toUTF8)
  entry : ∀ q, q ≠ placeOf path → Kept (· ∈ way path) fs fs' q
  children : ∀ p, (∀ q ∈ placeOf path :: way path, q.dropLast ≠ p) → fs'.children p = fs.children p

/-- If nothing is in the way, a file can be written. -/
theorem exists_writeText (hpath : Named path) (h : Clear fs path) (text : String) :
    ∃ fs', fs.writeText path text = .ok fs' ∧ Written path text fs fs' := by
  obtain ⟨before, name, hparts, hname⟩ := hpath
  have hnames : names path = naming before ++ [name] := by
    rw [names_eq, hparts, naming_append, naming_isName hname]
  have hway : way path = passed (origin path) (naming before) := by
    rw [way, hnames, List.dropLast_concat]
  obtain ⟨fs₁, hmake, hgrown, hdirs⟩ := exists_makeDirectories h.way
  rw [← way, hway] at hdirs
  have habove : isAbove (placeOf path) = false := by
    rw [placeOf, hnames, lead_append, lead_isName _ (by simpa using hname)]
    exact isAbove_isName hname _
  have hempty := ne_empty_of_parts hparts hname
  have hresolve : fs₁.resolve path = .ok (placeOf path) := by
    refine resolve_eq_ok.mpr ⟨hempty, rfl, fun b hb hne => ?_⟩
    have hb : b <+: before := by
      rw [hparts] at hb hne
      exact (List.prefix_concat_iff.mp hb).resolve_left hne
    rw [← lead_naming]
    by_cases hnil : naming b = []
    · rw [hnil]
      exact entry?_of_isAbove _ (isAbove_origin path)
    · exact hdirs _ (mem_passed.mpr ⟨_, hb.filter _, hnil, rfl⟩)
  have hplace : fs₁.entry? (placeOf path) ≠ some .directory :=
    (hgrown.entry (placeOf path)).ne_directory h.apart h.place
  have hput (q : Place) : entry? (fs₁.put (placeOf path) (.file text.toUTF8)) q =
      if q = placeOf path then some (.file text.toUTF8) else fs₁.entry? q := entry?_put fs₁ habove _ q
  refine ⟨fs₁.put (placeOf path) (.file text.toUTF8), ?_, ?_⟩
  · have hlast : (Path.parts path).getLast? ≠ some "" := by
      rw [hparts, List.getLast?_concat]
      simpa using hname.ne_empty
    have hstart : fs.makeDirectories (if isAbsolute path then ["/"] else []) (names path).dropLast = .ok fs₁ := hmake
    rw [writeText, hstart]
    dsimp only [bind, Except.bind]
    rw [if_neg (by simpa using hempty), if_neg hlast, hresolve]
    dsimp only
    split
    · contradiction
    · rfl
  · refine ⟨resolve_mono hresolve fun p hp => ?_, by rw [hput, if_pos rfl], fun q hq => ?_, fun p hp => ?_⟩
    · rw [hput, if_neg fun (heq : p = placeOf path) => hplace (heq ▸ hp), hp]
    · rw [Kept, hput, if_neg hq]
      exact hgrown.entry q
    · rw [children_put _ (hp _ List.mem_cons_self)]
      exact hgrown.children p fun q hq => hp q (List.mem_cons_of_mem _ hq)

/-! ## Writing several files -/

/-- A file to be written. -/
structure Output where
  path : String
  text : String

/-- Two paths lead to different places, and neither of these is on the way to the other. -/
structure Separate (path other : String) : Prop where
  ne : placeOf path ≠ placeOf other
  left : placeOf path ∉ way other
  right : placeOf other ∉ way path

/-- Some files have been written, and nothing else has changed but the directories on their ways. -/
structure Outputs (fs₀ fs : FileSystem) (done : List Output) : Prop where
  resolve : ∀ o ∈ done, fs.resolve o.path = .ok (placeOf o.path)
  file : ∀ o ∈ done, fs.entry? (placeOf o.path) = some (.file o.text.toUTF8)
  entry : ∀ q, (∀ o ∈ done, q ≠ placeOf o.path) → Kept (fun q => ∃ o ∈ done, q ∈ way o.path) fs₀ fs q
  directory : ∀ q, fs₀.entry? q = some .directory → fs.entry? q = some .directory
  children : ∀ p, (∀ o ∈ done, ∀ q ∈ placeOf o.path :: way o.path, q.dropLast ≠ p) →
    fs.children p = fs₀.children p

variable {done : List Output}

theorem Outputs.nil (fs : FileSystem) : Outputs fs fs [] where
  resolve := nofun
  file := nofun
  entry _ _ := .inl rfl
  directory _ h := h
  children _ _ := rfl

theorem Outputs.readText (h : Outputs fs₀ fs done) {o : Output} (ho : o ∈ done) : fs.readText o.path = .ok o.text :=
  readText_of_resolve (h.resolve o ho) (h.file o ho)

/-- Files that do not stand in the way of another one leave its way clear. -/
theorem Outputs.clear (h : Outputs fs₀ fs done) (hclear : Clear fs₀ path)
    (hseparate : ∀ o ∈ done, Separate o.path path) : Clear fs path where
  way q hq := by
    have hne : ∀ o ∈ done, q ≠ placeOf o.path := fun o ho heq => (hseparate o ho).left (heq ▸ hq)
    exact (h.entry q hne).ne_file (hclear.way q hq)
  place := by
    refine (h.entry _ fun o ho => (hseparate o ho).ne.symm).ne_directory ?_ hclear.place
    rintro ⟨o, ho, hway⟩
    exact (hseparate o ho).right hway
  apart := hclear.apart

/-- One more file is written. -/
theorem Outputs.write (h : Outputs fs₀ fs done) (hclear : Clear fs path)
    (hseparate : ∀ o ∈ done, Separate o.path path) (hwritten : Written path text fs fs') :
    Outputs fs₀ fs' (done ++ [⟨path, text⟩]) := by
  have hdirectory (q : Place) (hq : fs.entry? q = some .directory) : fs'.entry? q = some .directory :=
    (hwritten.entry q fun heq => hclear.place (heq ▸ hq)).directory hq
  have hkeeps (o : Output) (ho : o ∈ done) : fs'.entry? (placeOf o.path) = fs.entry? (placeOf o.path) :=
    (hwritten.entry _ (hseparate o ho).ne).resolve_right fun hway => (hseparate o ho).left hway.1
  constructor
  case resolve =>
    refine List.forall_mem_append.mpr ⟨fun o ho => resolve_mono (h.resolve o ho) hdirectory, ?_⟩
    exact List.forall_mem_singleton.mpr hwritten.resolve
  case file =>
    refine List.forall_mem_append.mpr ⟨fun o ho => (hkeeps o ho).trans (h.file o ho), ?_⟩
    exact List.forall_mem_singleton.mpr hwritten.file
  case entry =>
    intro q hq
    obtain ⟨hdone, hlast⟩ := List.forall_mem_append.mp hq
    have hlast : q ≠ placeOf path := hlast ⟨path, text⟩ List.mem_cons_self
    refine Kept.trans ((h.entry q hdone).imp ?_) ((hwritten.entry q hlast).imp ?_)
    · exact fun ⟨o, ho, hway⟩ => ⟨o, List.mem_append_left _ ho, hway⟩
    · exact fun hway => ⟨_, List.mem_concat_self, hway⟩
  case directory => exact fun q hq => hdirectory q (h.directory q hq)
  case children =>
    intro p hp
    obtain ⟨hdone, hlast⟩ := List.forall_mem_append.mp hp
    have hlast : ∀ q ∈ placeOf path :: way path, q.dropLast ≠ p := hlast ⟨path, text⟩ List.mem_cons_self
    exact (hwritten.children p hlast).trans (h.children p hdone)

end FileSystem

end Unminify
