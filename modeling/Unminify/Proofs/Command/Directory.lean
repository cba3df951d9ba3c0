import Unminify.Command.Run
import Unminify.Proofs.Files.WellFormed

/-!
# Walks under a directory

The sources under a directory are the files in it, or somewhere under it, whose names are those of sources
(`mem_sources`). A run lists each directory when it comes to it, and it writes while it goes on. As long as what
it writes is elsewhere, it finds what stood there at first: it visits the sources one after the other
(`normalizeUnder_visits`). What one visit keeps, the whole walk keeps.
-/

namespace Unminify.Command

open Path FileSystem

/-! ## Commands that succeed -/

/-- A command succeeds with a result. -/
def Succeeds {α : Type} (c : Command α) (s : Progress) (a : α) (t : Progress) : Prop := c.run.run s = (.ok a, t)

section

variable {α β : Type} {c : Command α} {f : α → Command β} {s t u : Progress} {a : α} {b : β}

theorem Succeeds.bind (h : Succeeds c s a t) (hf : Succeeds (f a) t b u) : Succeeds (c >>= f) s b u := by
  unfold Succeeds at h hf ⊢
  rw [ExceptT.run_bind, StateT.run_bind, h]
  exact hf

theorem succeeds_pure (a : α) (s : Progress) : Succeeds (pure a) s a s := rfl

theorem succeeds_get (s : Progress) : Succeeds get s s s := rfl

end

variable {n : Normalizer} {fs₀ fs : FileSystem} {s t : Progress} {input outDir path source text : String}
  {dump : Bool} {out : Normalized} {p : Place} {name : String} {rel : List String}

theorem normalizeFile_succeeds (h : s.files.readText path = .ok source) (hout : n.normalize source = .ok out) :
    Succeeds (normalizeFile n path) s out s := by
  unfold normalizeFile
  refine Succeeds.bind (succeeds_get s) ?_
  simp only [h]
  unfold normalizeText
  simp only [hout]
  exact succeeds_pure out s

theorem writeFile_succeeds (h : s.files.writeText path text = .ok fs) :
    Succeeds (writeFile path text) s () { s with files := fs } := by
  unfold writeFile
  refine Succeeds.bind (succeeds_get s) ?_
  simp only [h]
  rfl

/-! ## The sources -/

/-- The sources under a directory, in the order in which they are visited. The directory is given by its place
relative to the input, and so are the sources. -/
def sourcesUnder (fs : FileSystem) (p : Place) : Nat → List String → List (List String)
  | 0, _ => []
  | depth + 1, rel => (fs.children (p ++ rel)).flatMap fun name =>
    if (fs.requireDirectory (p ++ (rel ++ [name]))).isOk then sourcesUnder fs p depth (rel ++ [name])
    else if isSource name then [rel ++ [name]]
    else []

/-- The sources that a name in a directory stands for. -/
def sourcesNamed (fs : FileSystem) (p : Place) (depth : Nat) (rel : List String) (name : String) : List (List String) :=
  if (fs.requireDirectory (p ++ (rel ++ [name]))).isOk then sourcesUnder fs p depth (rel ++ [name])
  else if isSource name then [rel ++ [name]]
  else []

theorem sourcesUnder_succ (fs : FileSystem) (p : Place) (depth : Nat) (rel : List String) :
    sourcesUnder fs p (depth + 1) rel = (fs.children (p ++ rel)).flatMap (sourcesNamed fs p depth rel) := rfl

/-- A source file stands at a place relative to another one. -/
structure SourceAt (fs : FileSystem) (p : Place) (rel : List String) : Prop where
  named : ∀ name ∈ rel, IsName name
  source : ∃ name, rel.getLast? = some name ∧ isSource name = true
  file : ∃ bytes, fs.entry? (p ++ rel) = some (.file bytes)

theorem SourceAt.ne_nil (h : SourceAt fs p rel) : rel ≠ [] := by
  rintro rfl
  obtain ⟨_, hlast, -⟩ := h.source
  cases hlast

theorem sourceAt_singleton :
    SourceAt fs p [name] ↔ IsName name ∧ isSource name = true ∧ ∃ bytes, fs.entry? (p ++ [name]) = some (.file bytes) := by
  constructor
  · intro h
    obtain ⟨last, hlast, hsource⟩ := h.source
    obtain rfl : name = last := Option.some.inj hlast
    exact ⟨h.named name List.mem_cons_self, hsource, h.file⟩
  · rintro ⟨hname, hsource, hfile⟩
    exact ⟨List.forall_mem_singleton.mpr hname, ⟨name, rfl, hsource⟩, hfile⟩

theorem sourceAt_cons (hrel : rel ≠ []) : SourceAt fs p (name :: rel) ↔ IsName name ∧ SourceAt fs (p ++ [name]) rel := by
  have hlast : (name :: rel).getLast? = rel.getLast? := by
    obtain ⟨x, xs, rfl⟩ := List.exists_cons_of_ne_nil hrel
    exact List.getLast?_cons_cons
  constructor
  · intro h
    refine ⟨h.named name List.mem_cons_self, fun x hx => h.named x (List.mem_cons_of_mem _ hx), hlast ▸ h.source, ?_⟩
    rw [List.append_assoc]
    exact h.file
  · rintro ⟨hname, h⟩
    refine ⟨List.forall_mem_cons.mpr ⟨hname, h.named⟩, hlast ▸ h.source, ?_⟩
    obtain ⟨bytes, hbytes⟩ := h.file
    rw [List.append_assoc] at hbytes
    exact ⟨bytes, hbytes⟩

/-- The sources under a directory are the files with the name of a source that stand somewhere in it. -/
theorem mem_sourcesUnder (hfs : fs.WellFormed) {depth : Nat} {found : List String} :
    found ∈ sourcesUnder fs p depth rel ↔
      ∃ more, found = rel ++ more ∧ SourceAt fs (p ++ rel) more ∧ more.length ≤ depth := by
  induction depth generalizing rel with
  | zero =>
    refine iff_of_false List.not_mem_nil ?_
    rintro ⟨more, -, hmore, hlength⟩
    exact hmore.ne_nil (List.length_eq_zero_iff.mp (Nat.le_zero.mp hlength))
  | succ depth ih =>
    rw [sourcesUnder_succ, List.mem_flatMap]
    constructor
    · rintro ⟨name, hname, hfound⟩
      obtain ⟨hisName, e, hentry⟩ := hfs.mem_children.mp hname
      rw [sourcesNamed] at hfound
      split at hfound
      next hdir =>
        obtain ⟨more, rfl, hmore, hlength⟩ := ih.mp hfound
        rw [← List.append_assoc] at hmore
        refine ⟨name :: more, by simp, (sourceAt_cons hmore.ne_nil).mpr ⟨hisName, hmore⟩, ?_⟩
        exact Nat.succ_le_succ hlength
      next hdir =>
        split at hfound
        next hsource =>
          obtain rfl := List.mem_singleton.mp hfound
          rw [requireDirectory_isOk, ← List.append_assoc] at hdir
          refine ⟨[name], rfl, sourceAt_singleton.mpr ⟨hisName, hsource, ?_⟩, Nat.succ_le_succ (Nat.zero_le _)⟩
          cases e with
          | file bytes => exact ⟨bytes, hentry⟩
          | directory => exact absurd hentry hdir
        next => cases hfound
    · rintro ⟨more, rfl, hmore, hlength⟩
      obtain ⟨name, more, rfl⟩ := List.exists_cons_of_ne_nil hmore.ne_nil
      by_cases hnil : more = []
      · subst hnil
        obtain ⟨hname, hsource, bytes, hfile⟩ := sourceAt_singleton.mp hmore
        refine ⟨name, hfs.mem_children.mpr ⟨hname, _, hfile⟩, ?_⟩
        rw [sourcesNamed, if_neg, if_pos hsource]
        · exact List.mem_cons_self
        · rw [requireDirectory_isOk, ← List.append_assoc, hfile]
          exact nofun
      · obtain ⟨hname, hmore⟩ := (sourceAt_cons hnil).mp hmore
        obtain ⟨bytes, hfile⟩ := hmore.file
        have hdir := hfs.directory_of_append hmore.named hnil hfile
        refine ⟨name, hfs.mem_children.mpr ⟨hname, _, hdir⟩, ?_⟩
        rw [List.append_assoc] at hdir hmore
        rw [sourcesNamed, if_pos (requireDirectory_isOk.mpr hdir), ih]
        exact ⟨more, by simp, hmore, Nat.le_of_succ_le_succ hlength⟩

/-- The sources under the directory at a place. -/
def sources (fs : FileSystem) (p : Place) : List (List String) := sourcesUnder fs p directoryDepth []

theorem mem_sources (hfs : fs.WellFormed) : rel ∈ sources fs p ↔ SourceAt fs p rel ∧ rel.length ≤ directoryDepth := by
  rw [sources, mem_sourcesUnder hfs, List.append_nil]
  constructor
  · rintro ⟨_, rfl, h⟩
    exact h
  · exact fun h => ⟨rel, rfl, h⟩

theorem nodup_sourcesUnder (hfs : fs.WellFormed) (p : Place) (depth : Nat) (rel : List String) :
    (sourcesUnder fs p depth rel).Nodup := by
  induction depth generalizing rel with
  | zero => exact .nil
  | succ depth ih =>
    rw [sourcesUnder_succ, List.nodup_flatMap]
    constructor
    · intro name _
      rw [sourcesNamed]
      split
      · exact ih (rel ++ [name])
      · split
        · exact List.nodup_singleton _
        · exact .nil
    · refine (hfs.nodup_children _).imp ?_
      intro name name' hne found hfound hfound'
      have hstart {name : String} (hfound : found ∈ sourcesNamed fs p depth rel name) : found[rel.length]? = some name := by
        rw [sourcesNamed] at hfound
        split at hfound
        · obtain ⟨more, rfl, -⟩ := (mem_sourcesUnder hfs).mp hfound
          simp
        · split at hfound
          · obtain rfl := List.mem_singleton.mp hfound
            simp
          · cases hfound
      exact hne (Option.some.inj ((hstart hfound).symm.trans (hstart hfound')))

/-- No source stands on the way to another one. -/
theorem sources_incomparable (hfs : fs.WellFormed) (p : Place) :
    (sources fs p).Pairwise fun a b => ¬ a <+: b ∧ ¬ b <+: a := by
  have hfront {a b : List String} (ha : a ∈ sources fs p) (hb : b ∈ sources fs p) (hne : a ≠ b) : ¬ a <+: b := by
    rintro ⟨more, rfl⟩
    have hmore : more ≠ [] := fun h => hne (by rw [h, List.append_nil])
    obtain ⟨hnamed, -, bytes, hbytes⟩ := ((mem_sources hfs).mp hb).1
    obtain ⟨-, -, bytes', hbytes'⟩ := ((mem_sources hfs).mp ha).1
    rw [← List.append_assoc] at hbytes
    have hdir := hfs.directory_of_append (fun x hx => hnamed x (List.mem_append_right _ hx)) hmore hbytes
    rw [hbytes'] at hdir
    cases hdir
  refine (nodup_sourcesUnder hfs p directoryDepth []).pairwise_of_forall_ne fun a ha b hb hne => ?_
  exact ⟨hfront ha hb hne, hfront hb ha hne.symm⟩

/-! ## The walk -/

/-- Normalizes a source into its target, and counts it. -/
def visit (n : Normalizer) (outDir : String) (dump : Bool) (path relative : String) : Command Nat := do
  let out ← normalizeFile n path
  writeFile (target outDir relative dump) (render out dump)
  return 1

/-- Normalizes what a name in a directory stands for. -/
def normalizeName (n : Normalizer) (outDir : String) (dump : Bool) (depth : Nat) (path relative name : String) :
    Command Nat := do
  let path := join path name
  let relative := join relative name
  if (← get).files.isDirectory path then normalizeUnder n outDir dump depth path relative
  else if isSource path then visit n outDir dump path relative
  else return 0

theorem normalizeUnder_succeeds {depth : Nat} {relative : String} {counts : List Nat}
    (h : Succeeds ((s.files.list path).mapM (normalizeName n outDir dump depth path relative)) s counts t) :
    Succeeds (normalizeUnder n outDir dump (depth + 1) path relative) s (counts.foldr (· + ·) 0) t := by
  refine Succeeds.bind (succeeds_get s) ?_
  exact Succeeds.bind h (succeeds_pure _ t)

section

variable {depth count : Nat} {relative : String}

theorem normalizeName_directory (h : s.files.isDirectory (join path name) = true)
    (hunder : Succeeds (normalizeUnder n outDir dump depth (join path name) (join relative name)) s count t) :
    Succeeds (normalizeName n outDir dump depth path relative name) s count t := by
  refine Succeeds.bind (succeeds_get s) ?_
  rw [if_pos h]
  exact hunder

theorem normalizeName_source (h : s.files.isDirectory (join path name) = false)
    (hsource : isSource (join path name) = true)
    (hvisit : Succeeds (visit n outDir dump (join path name) (join relative name)) s count t) :
    Succeeds (normalizeName n outDir dump depth path relative name) s count t := by
  refine Succeeds.bind (succeeds_get s) ?_
  rw [if_neg (by simp [h]), if_pos hsource]
  exact hvisit

theorem normalizeName_other (h : s.files.isDirectory (join path name) = false)
    (hsource : isSource (join path name) = false) :
    Succeeds (normalizeName n outDir dump depth path relative name) s 0 s := by
  refine Succeeds.bind (succeeds_get s) ?_
  rw [if_neg (by simp [h]), if_neg (by simp [hsource])]
  exact succeeds_pure 0 s

end

theorem isSource_join (path : String) (h : IsName name) : isSource (join path name) = isSource name := by
  simp only [isSource, extension?, names_join path h.isAbsolute_eq, names_of_isName h, List.getLast?_append,
    List.getLast?_singleton, Option.some_or]

/-- What stands at and under a place has not changed. -/
structure Unmoved (p : Place) (fs₀ fs : FileSystem) : Prop where
  entry : ∀ q, p <+: q → fs.entry? q = fs₀.entry? q
  children : ∀ q, p <+: q → fs.children q = fs₀.children q
  directory : ∀ q, fs₀.entry? q = some .directory → fs.entry? q = some .directory

/-- A command visits some sources, after others and among all: it counts them and keeps an invariant that tells
which sources have been visited. -/
def Visits (Good : List (List String) → Progress → Prop) (all : List (List String)) (c : Command Nat)
    (found : List (List String)) : Prop :=
  ∀ done s, done ++ found <+: all → Good done s → ∃ t, Succeeds c s found.length t ∧ Good (done ++ found) t

section

variable {Good : List (List String) → Progress → Prop} {all : List (List String)} {depth : Nat}

/-- Commands visit sources one after the other. -/
theorem mapM_visits {names : List String} {body : String → Command Nat} {found : String → List (List String)}
    (h : ∀ name ∈ names, Visits Good all (body name) (found name)) {done : List (List String)}
    (hall : done ++ names.flatMap found <+: all) (hgood : Good done s) :
    ∃ counts t, Succeeds (names.mapM body) s counts t ∧ counts.foldr (· + ·) 0 = (names.flatMap found).length ∧
      Good (done ++ names.flatMap found) t := by
  induction names generalizing done s with
  | nil => exact ⟨[], s, succeeds_pure [] s, rfl, (List.append_nil done).symm ▸ hgood⟩
  | cons name names ih =>
    rw [List.flatMap_cons, ← List.append_assoc] at hall ⊢
    obtain ⟨hhere, hrest⟩ := List.forall_mem_cons.mp h
    obtain ⟨t, hbody, ht⟩ := hhere done s ((List.prefix_append _ _).trans hall) hgood
    obtain ⟨counts, u, hmap, hcounts, hu⟩ := ih hrest hall ht
    refine ⟨(found name).length :: counts, u, ?_, ?_, hu⟩
    · rw [List.mapM_cons]
      exact hbody.bind (hmap.bind (succeeds_pure _ u))
    · rw [List.foldr_cons, hcounts, List.length_append]

variable (hfs : fs₀.WellFormed) (hview : ∀ done s, Good done s → Unmoved p fs₀ s.files)
  (hvisit : ∀ rel, Visits Good all (visit n outDir dump (under input rel) (under "" rel)) [rel])

include hview hvisit

theorem normalizeName_visits (hname : IsName name)
    (hpath : fs₀.resolve (under input (rel ++ [name])) = .ok (p ++ (rel ++ [name])))
    (hunder : fs₀.entry? (p ++ (rel ++ [name])) = some .directory →
      Visits Good all (normalizeUnder n outDir dump depth (under input (rel ++ [name])) (under "" (rel ++ [name])))
        (sourcesUnder fs₀ p depth (rel ++ [name]))) :
    Visits Good all (normalizeName n outDir dump depth (under input rel) (under "" rel) name)
      (sourcesNamed fs₀ p depth rel name) := by
  intro done s hall hgood
  have hunmoved := hview done s hgood
  have hisDirectory : s.files.isDirectory (under input (rel ++ [name])) =
      (fs₀.requireDirectory (p ++ (rel ++ [name]))).isOk := by
    rw [Bool.eq_iff_iff, isDirectory_of_resolve (resolve_mono hpath hunmoved.directory), requireDirectory_isOk,
      hunmoved.entry _ (List.prefix_append _ _)]
  have hisSource := isSource_join (under input rel) hname
  rw [under_append] at hisDirectory
  cases hdir : (fs₀.requireDirectory (p ++ (rel ++ [name]))).isOk with
  | true =>
    have hfound : sourcesNamed fs₀ p depth rel name = sourcesUnder fs₀ p depth (rel ++ [name]) := if_pos hdir
    rw [hfound] at hall ⊢
    obtain ⟨t, hrun, ht⟩ := hunder (requireDirectory_isOk.mp hdir) done s hall hgood
    rw [under_append, under_append] at hrun
    exact ⟨t, normalizeName_directory (hisDirectory.trans hdir) hrun, ht⟩
  | false =>
    have hfound : sourcesNamed fs₀ p depth rel name = if isSource name then [rel ++ [name]] else [] :=
      if_neg (by simp [hdir])
    rw [hfound] at hall ⊢
    cases hsource : isSource name with
    | true =>
      rw [hsource, if_pos rfl] at hall
      obtain ⟨t, hrun, ht⟩ := hvisit _ done s hall hgood
      rw [under_append, under_append] at hrun
      exact ⟨t, normalizeName_source (hisDirectory.trans hdir) (hisSource.trans hsource) hrun, ht⟩
    | false =>
      refine ⟨s, normalizeName_other (hisDirectory.trans hdir) (hisSource.trans hsource), ?_⟩
      exact (List.append_nil done).symm ▸ hgood

include hfs

/-- The walk under a directory visits the sources there one after the other. -/
theorem normalizeUnder_visits (hpath : fs₀.resolve (under input rel) = .ok (p ++ rel))
    (hdir : fs₀.entry? (p ++ rel) = some .directory) :
    Visits Good all (normalizeUnder n outDir dump depth (under input rel) (under "" rel))
      (sourcesUnder fs₀ p depth rel) := by
  induction depth generalizing rel with
  | zero => exact fun done s _ hgood => ⟨s, succeeds_pure 0 s, (List.append_nil done).symm ▸ hgood⟩
  | succ depth ih =>
    intro done s hall hgood
    have hunmoved := hview done s hgood
    have hlist : s.files.list (under input rel) = fs₀.children (p ++ rel) := by
      rw [list_of_resolve (resolve_mono hpath hunmoved.directory), hunmoved.children _ (List.prefix_append _ _)]
    have hnames : ∀ name ∈ fs₀.children (p ++ rel), Visits Good all
        (normalizeName n outDir dump depth (under input rel) (under "" rel) name) (sourcesNamed fs₀ p depth rel name) := by
      intro name hname
      have hname := hfs.isName_of_mem_children hname
      have hjoin : fs₀.resolve (under input (rel ++ [name])) = .ok (p ++ (rel ++ [name])) := by
        rw [under_append, ← List.append_assoc]
        exact resolve_join hpath hdir hname
      exact normalizeName_visits hview hvisit hname hjoin fun hsub => ih hjoin hsub
    obtain ⟨counts, t, hmap, hcounts, ht⟩ := mapM_visits hnames hall hgood
    refine ⟨t, ?_, ht⟩
    rw [sourcesUnder_succ, ← hcounts]
    exact normalizeUnder_succeeds (hlist ▸ hmap)

end

end Unminify.Command
