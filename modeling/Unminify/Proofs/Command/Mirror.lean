import Unminify.Proofs.Command.Directory

/-!
# Directories that are mirrored

A directory is normalized into an output directory, where each source has a target under the same names. One
visit adds the output of one source (`visit_mirrored`), and from this a whole run leaves one output for each
source that it counts, with that source's own rendering (`normalizeUnder_mirrors`), if no target is in the way of
another one.

For source text no target ever is (`normalizeUnder_sources`), and a request reports as many files as it leaves
(`perform_sources`). For dumps a target has another extension than its source, and sources whose names differ in
the extension only have one target (`targetNames_dump`), so there the condition stays.
-/

namespace Unminify.Command

open Path FileSystem

variable {n : Normalizer} {fs₀ fs : FileSystem} {s t : Progress} {input outDir : String} {dump : Bool} {p q : Place}
  {rel other : List String}

/-! ## Targets -/

/-- The names of a source's target, behind the output directory. -/
def targetNames (dump : Bool) (rel : List String) : List String :=
  if dump then rel.dropLast ++ [(cutExtension (rel.getLast?.getD "")).1 ++ "." ++ "json"] else rel

/-- The path of a source's target. -/
def targetPath (outDir : String) (dump : Bool) (rel : List String) : String := target outDir (under "" rel) dump

theorem isName_targetNames (dump : Bool) (hrel : ∀ x ∈ rel, IsName x) (hne : rel ≠ []) :
    ∀ x ∈ targetNames dump rel, IsName x := by
  cases dump with
  | false => exact hrel
  | true =>
    obtain ⟨before, name, rfl⟩ := (List.eq_nil_or_concat' rel).resolve_left hne
    obtain ⟨hbefore, hname⟩ := List.forall_mem_append.mp hrel
    have hname := hname name List.mem_cons_self
    rw [targetNames, if_pos rfl, List.dropLast_concat, List.getLast?_concat]
    exact List.forall_mem_append.mpr ⟨hbefore,
      List.forall_mem_singleton.mpr (hname.withExtension (by decide) (by decide))⟩

/-- For dumps, the extension of a source is replaced: sources whose names differ in the extension only have the same
target. -/
theorem targetNames_dump {stem ext : String} (hstem : stem ≠ "") (hext : ext ≠ "") (hdot : '.' ∉ ext.toList)
    (rel : List String) : targetNames true (rel ++ [stem ++ "." ++ ext]) = rel ++ [stem ++ "." ++ "json"] := by
  rw [targetNames, if_pos rfl, List.dropLast_concat, List.getLast?_concat, Option.getD_some,
    cutExtension_append hstem hext hdot]

/-- A target is behind the output directory, under a name of its own. -/
theorem targetPath_spec (outDir : String) (dump : Bool) (hrel : ∀ x ∈ rel, IsName x) (hne : rel ≠ []) :
    Named (targetPath outDir dump rel) ∧ isAbsolute (targetPath outDir dump rel) = isAbsolute outDir ∧
      names (targetPath outDir dump rel) = names outDir ++ targetNames dump rel := by
  obtain ⟨before, name, rfl⟩ := (List.eq_nil_or_concat' rel).resolve_left hne
  have hname := hrel name List.mem_concat_self
  have hrelative : isAbsolute (under "" (before ++ [name])) = false := isAbsolute_under "" hrel
  obtain ⟨first, hfirst, -⟩ := parts_join outDir hrelative
  obtain ⟨middle, hmiddle⟩ := parts_under "" hrel
  rw [hmiddle, ← List.append_assoc] at hfirst
  have habsolute := isAbsolute_join outDir hrelative
  have hnames : names (join outDir (under "" (before ++ [name]))) = names outDir ++ (before ++ [name]) := by
    rw [names_join outDir hrelative, names_under "" hrel]
    rfl
  cases dump with
  | false => exact ⟨⟨first ++ middle, name, hfirst, hname⟩, habsolute, hnames⟩
  | true =>
    have hnew : IsName ((cutExtension name).1 ++ "." ++ "json") := hname.withExtension (by decide) (by decide)
    have hparts := parts_withExtension hfirst hnew.no_slash
    have hfront : naming (first ++ middle) = names outDir ++ before := by
      rw [names_eq, hfirst, naming_append, naming_isName hname, ← List.append_assoc] at hnames
      exact (List.append_inj' hnames rfl).1
    refine ⟨⟨first ++ middle, _, hparts, hnew⟩, (isAbsolute_withExtension hfirst hnew.no_slash).trans habsolute, ?_⟩
    rw [targetPath, target, if_pos rfl, names_eq, hparts, naming_append, naming_isName hnew, hfront, targetNames,
      if_pos rfl, List.dropLast_concat, List.getLast?_concat, List.append_assoc]
    rfl

theorem placeOf_targetPath (hrel : ∀ x ∈ rel, IsName x) (hne : rel ≠ []) :
    placeOf (targetPath outDir dump rel) = placeOf outDir ++ targetNames dump rel := by
  obtain ⟨-, habsolute, hnames⟩ := targetPath_spec outDir dump hrel hne
  rw [placeOf, origin, habsolute, ← origin, hnames, lead_append, ← placeOf, lead_isName _ (isName_targetNames dump hrel hne)]

theorem way_targetPath (hrel : ∀ x ∈ rel, IsName x) (hne : rel ≠ []) :
    way (targetPath outDir dump rel) = passed (origin outDir) (names outDir) ++
      passed (placeOf outDir) (targetNames dump rel).dropLast := by
  obtain ⟨-, habsolute, hnames⟩ := targetPath_spec outDir dump hrel hne
  have htarget : targetNames dump rel ≠ [] := by
    cases dump with
    | false => exact hne
    | true => exact List.concat_ne_nil _ _
  rw [way, origin, habsolute, ← origin, hnames, List.dropLast_append_of_ne_nil htarget, passed_append, ← placeOf]

/-- The target of a source is not on the way to that of another one, unless its names are. -/
theorem placeOf_targetPath_notMem_way {fs : FileSystem} (hrel : ∀ x ∈ rel, IsName x) (hne : rel ≠ [])
    (hother : ∀ x ∈ other, IsName x) (hother' : other ≠ []) (hclear : Clear fs (targetPath outDir dump rel))
    (h : ¬ targetNames dump rel <+: targetNames dump other) :
    placeOf (targetPath outDir dump rel) ∉ way (targetPath outDir dump other) := by
  intro hmem
  rw [way_targetPath hother hother'] at hmem
  rcases List.mem_append.mp hmem with hmem | hmem
  · refine hclear.apart ?_
    rw [way_targetPath hrel hne]
    exact List.mem_append_left _ hmem
  · obtain ⟨before, hbefore, -, hlead⟩ := mem_passed.mp hmem
    have hfront := hbefore.trans (List.dropLast_prefix _)
    have hnames := fun x hx => isName_targetNames dump hother hother' x (hfront.subset hx)
    rw [lead_isName _ hnames, placeOf_targetPath hrel hne] at hlead
    exact h (List.append_cancel_left hlead ▸ hfront)

theorem separate_targetPath {fs : FileSystem} (hrel : ∀ x ∈ rel, IsName x) (hne : rel ≠ [])
    (hother : ∀ x ∈ other, IsName x) (hother' : other ≠ []) (hclear : Clear fs (targetPath outDir dump rel))
    (hclear' : Clear fs (targetPath outDir dump other))
    (h : ¬ targetNames dump rel <+: targetNames dump other ∧ ¬ targetNames dump other <+: targetNames dump rel) :
    Separate (targetPath outDir dump rel) (targetPath outDir dump other) where
  ne heq := by
    rw [placeOf_targetPath hrel hne, placeOf_targetPath hother hother'] at heq
    exact h.1 (List.append_cancel_left heq ▸ List.prefix_rfl)
  left := placeOf_targetPath_notMem_way hrel hne hother hother' hclear h.1
  right := placeOf_targetPath_notMem_way hother hother' hrel hne hclear' h.2

/-! ## Input and output -/

/-- The output directory is apart from the input: neither it nor anything in it or on the way to it stands at the
input or under it. -/
structure Apart (input outDir : String) : Prop where
  way : ∀ q ∈ passed (origin outDir) (names outDir), ¬ placeOf input <+: q
  below : ∀ rel, (∀ name ∈ rel, IsName name) → ¬ placeOf input <+: placeOf outDir ++ rel

theorem Apart.target (h : Apart input outDir) (hrel : ∀ x ∈ rel, IsName x) (hne : rel ≠ []) :
    ∀ q ∈ placeOf (targetPath outDir dump rel) :: FileSystem.way (targetPath outDir dump rel), ¬ placeOf input <+: q := by
  have hnames := isName_targetNames dump hrel hne
  rw [placeOf_targetPath hrel hne, way_targetPath hrel hne, List.forall_mem_cons, List.forall_mem_append]
  refine ⟨h.below _ hnames, h.way, fun q hq => ?_⟩
  obtain ⟨before, hbefore, -, rfl⟩ := mem_passed.mp hq
  have hbefore := fun x hx => hnames x ((hbefore.trans (List.dropLast_prefix _)).subset hx)
  rw [lead_isName _ hbefore]
  exact h.below before hbefore

/-- What is written elsewhere leaves the input as it is. -/
theorem unmoved_of_outputs {outs : List Output} (h : Outputs fs₀ fs outs)
    (helse : ∀ o ∈ outs, ∀ q ∈ placeOf o.path :: way o.path, ¬ p <+: q) : Unmoved p fs₀ fs where
  entry q hq := by
    have hne : ∀ o ∈ outs, q ≠ placeOf o.path := fun o ho heq => helse o ho q (heq ▸ List.mem_cons_self) hq
    refine (h.entry q hne).resolve_right ?_
    rintro ⟨⟨o, ho, hway⟩, -⟩
    exact helse o ho q (List.mem_cons_of_mem _ hway) hq
  children q hq := h.children q fun o ho x hx heq => helse o ho x hx (hq.trans (heq ▸ List.dropLast_prefix x))
  directory := h.directory

/-- A source leads to its place. -/
theorem resolve_source (hfs : fs.WellFormed) (hinput : fs.resolve input = .ok p) (hrel : ∀ x ∈ rel, IsName x)
    {e : FileEntry} (hentry : fs.entry? (p ++ rel) = some e) : fs.resolve (under input rel) = .ok (p ++ rel) := by
  induction rel using List.reverseRecOn generalizing e with
  | nil => rwa [List.append_nil]
  | append_singleton rel name ih =>
    obtain ⟨hrel, hname⟩ := List.forall_mem_append.mp hrel
    have hname := hname name List.mem_cons_self
    rw [← List.append_assoc] at hentry ⊢
    have hdir := hfs.directory_of_append_singleton hname hentry
    rw [under_append]
    exact resolve_join (ih hrel hdir) hdir hname

/-! ## The run -/

/-- What is written for a source: to its own target, its own rendering. -/
structure Renders (n : Normalizer) (fs : FileSystem) (input outDir : String) (dump : Bool) (rel : List String)
    (o : Output) : Prop where
  path : o.path = targetPath outDir dump rel
  text : ∃ source out, fs.readText (under input rel) = .ok source ∧ n.normalize source = .ok out ∧
    o.text = render out dump

/-- The outputs of some sources have been written, and nothing else has been done. -/
structure Mirrored (n : Normalizer) (s₀ : Progress) (input outDir : String) (dump : Bool) (done : List (List String))
    (s : Progress) : Prop where
  outputs : ∃ outs, List.Forall₂ (Renders n s₀.files input outDir dump) done outs ∧ Outputs s₀.files s.files outs
  stdout : s.stdout = s₀.stdout
  stderr : s.stderr = s₀.stderr

section

variable {all done : List (List String)}

theorem paths_eq {outs : List Output} (h : List.Forall₂ (Renders n fs₀ input outDir dump) done outs) :
    outs.map (·.path) = done.map (targetPath outDir dump) := by
  induction h with
  | nil => rfl
  | cons hr _ ih => rw [List.map_cons, List.map_cons, hr.path, ih]

theorem exists_source {outs : List Output} (h : List.Forall₂ (Renders n fs₀ input outDir dump) done outs)
    {o : Output} (ho : o ∈ outs) : ∃ rel ∈ done, targetPath outDir dump rel = o.path :=
  List.mem_map.mp (paths_eq h ▸ List.mem_map_of_mem ho)

theorem exists_output {outs : List Output} (h : List.Forall₂ (Renders n fs₀ input outDir dump) done outs)
    (hrel : rel ∈ done) : ∃ o ∈ outs, Renders n fs₀ input outDir dump rel o := by
  induction h with
  | nil => cases hrel
  | cons hr _ ih =>
    rcases List.mem_cons.mp hrel with rfl | hrel
    · exact ⟨_, List.mem_cons_self, hr⟩
    · exact (ih hrel).imp fun o h => ⟨List.mem_cons_of_mem _ h.1, h.2⟩

variable {s₀ : Progress} (hfs : s₀.files.WellFormed) (hinput : s₀.files.resolve input = .ok p)
  (hapart : Apart input outDir) (hsource : ∀ rel ∈ all, SourceAt s₀.files p rel)

include hinput hapart hsource

theorem Mirrored.unmoved (hdone : done <+: all) (h : Mirrored n s₀ input outDir dump done s) :
    Unmoved p s₀.files s.files := by
  obtain ⟨outs, hrenders, houts⟩ := h.outputs
  refine unmoved_of_outputs houts fun o ho => ?_
  obtain ⟨rel, hrel, hpath⟩ := exists_source hrenders ho
  have hrel := hsource rel (hdone.subset hrel)
  rw [← hpath, ← placeOf_of_resolve hinput]
  exact hapart.target hrel.named hrel.ne_nil

include hfs

/-- A visit adds the output of its source. -/
theorem visit_mirrored (hrenders : ∀ rel ∈ all, ∃ o, Renders n s₀.files input outDir dump rel o)
    (hclear : ∀ rel ∈ all, Clear s₀.files (targetPath outDir dump rel))
    (hseparate : all.Pairwise fun a b => Separate (targetPath outDir dump a) (targetPath outDir dump b))
    (rel : List String) :
    Visits (fun done s => done <+: all ∧ Mirrored n s₀ input outDir dump done s) all
      (visit n outDir dump (under input rel) (under "" rel)) [rel] := by
  rintro done s hall ⟨hdone, hmirrored⟩
  have hunmoved := hmirrored.unmoved hinput hapart hsource hdone
  obtain ⟨⟨outs, houts, hfiles⟩, hstdout, hstderr⟩ := hmirrored
  have hrel : rel ∈ all := hall.subset List.mem_concat_self
  obtain ⟨o, ho⟩ := hrenders rel hrel
  obtain ⟨source, out, hread, hout, htext⟩ := ho.text
  have hat := hsource rel hrel
  obtain ⟨bytes, hbytes⟩ := hat.file
  have hread : s.files.readText (under input rel) = .ok source := by
    have hresolve := resolve_source hfs hinput hat.named hbytes
    rw [← hread]
    exact readText_congr hresolve (resolve_mono hresolve hunmoved.directory)
      (hunmoved.entry _ (List.prefix_append _ _))
  have hothers : ∀ o ∈ outs, Separate o.path (targetPath outDir dump rel) := by
    intro o ho
    obtain ⟨other, hother, hpath⟩ := exists_source houts ho
    rw [← hpath]
    exact (List.pairwise_append.mp (hseparate.sublist hall.sublist)).2.2 other hother rel List.mem_cons_self
  have hfree := hfiles.clear (hclear rel hrel) hothers
  obtain ⟨fs, hwrite, hwritten⟩ :=
    exists_writeText (targetPath_spec outDir dump hat.named hat.ne_nil).1 hfree (render out dump)
  refine ⟨{ s with files := fs }, ?_, hall,
    ⟨outs ++ [⟨targetPath outDir dump rel, render out dump⟩], ?_, ?_⟩, hstdout, hstderr⟩
  · exact (normalizeFile_succeeds hread hout).bind ((writeFile_succeeds hwrite).bind (succeeds_pure 1 _))
  · refine List.rel_append houts (.cons ?_ .nil)
    rwa [← ho.path, ← htext]
  · exact hfiles.write hfree hothers hwritten

end

/-- A directory can be normalized: each of its sources can, the output directory is apart from it, and a file can
be written to each target. -/
structure Normalizable (n : Normalizer) (fs : FileSystem) (input outDir : String) (dump : Bool) (p : Place) : Prop where
  wellFormed : fs.WellFormed
  resolve : fs.resolve input = .ok p
  directory : fs.entry? p = some .directory
  apart : Apart input outDir
  renders : ∀ rel ∈ sources fs p, ∃ o, Renders n fs input outDir dump rel o
  clear : ∀ rel ∈ sources fs p, Clear fs (targetPath outDir dump rel)

/-- The files after a run over a directory: there is one output for each source. The targets are different places,
and each of them holds the rendering of its own source. Nothing else has changed but that directories have been made
on the ways. -/
structure Mirror (n : Normalizer) (fs : FileSystem) (input outDir : String) (dump : Bool) (p : Place)
    (fs' : FileSystem) : Prop where
  nodup : ((sources fs p).map fun rel => placeOf (targetPath outDir dump rel)).Nodup
  output : ∀ rel ∈ sources fs p, ∃ source out, fs.readText (under input rel) = .ok source ∧
    n.normalize source = .ok out ∧ fs'.readText (targetPath outDir dump rel) = .ok (render out dump)
  entry : ∀ q, (∀ rel ∈ sources fs p, q ≠ placeOf (targetPath outDir dump rel)) →
    Kept (fun q => ∃ rel ∈ sources fs p, q ∈ way (targetPath outDir dump rel)) fs fs' q

/-- If no target is, or is on the way to, the target of another source, a run leaves one output for each source, and
counts the sources. -/
theorem normalizeUnder_mirrors (h : Normalizable n s.files input outDir dump p)
    (hincomparable : ((sources s.files p).map (targetNames dump)).Pairwise fun a b => ¬ a <+: b ∧ ¬ b <+: a) :
    ∃ files, Succeeds (normalizeUnder n outDir dump directoryDepth input "") s (sources s.files p).length
      { s with files := files } ∧ Mirror n s.files input outDir dump p files := by
  have hsource (rel : List String) (hrel : rel ∈ sources s.files p) : SourceAt s.files p rel :=
    ((mem_sources h.wellFormed).mp hrel).1
  have hseparate : (sources s.files p).Pairwise fun a b =>
      Separate (targetPath outDir dump a) (targetPath outDir dump b) := by
    refine (List.pairwise_map.mp hincomparable).imp_of_mem fun {a b} ha hb hab => ?_
    exact separate_targetPath (hsource a ha).named (hsource a ha).ne_nil (hsource b hb).named (hsource b hb).ne_nil
      (h.clear a ha) (h.clear b hb) hab
  have hvisit := visit_mirrored h.wellFormed h.resolve h.apart hsource h.renders h.clear hseparate
  have hresolve : s.files.resolve (under input []) = .ok (p ++ []) := (List.append_nil p).symm ▸ h.resolve
  have hdirectory : s.files.entry? (p ++ []) = some .directory := (List.append_nil p).symm ▸ h.directory
  have hall : [] ++ sourcesUnder s.files p directoryDepth [] <+: sources s.files p := List.prefix_rfl
  obtain ⟨⟨files, _, _⟩, hrun, -, ⟨outs, houts, hfiles⟩, rfl, rfl⟩ :=
    normalizeUnder_visits h.wellFormed (fun done s hgood => hgood.2.unmoved h.resolve h.apart hsource hgood.1) hvisit
      hresolve hdirectory [] s hall ⟨List.nil_prefix, ⟨[], .nil, .nil s.files⟩, rfl, rfl⟩
  refine ⟨files, hrun, List.pairwise_map.mpr (hseparate.imp Separate.ne), fun rel hrel => ?_, fun q hq => ?_⟩
  · obtain ⟨o, ho, hpath, source, out, hread, hout, htext⟩ := exists_output houts hrel
    refine ⟨source, out, hread, hout, ?_⟩
    rw [← hpath, ← htext]
    exact hfiles.readText ho
  · have hne : ∀ o ∈ outs, q ≠ placeOf o.path := by
      intro o ho
      obtain ⟨rel, hrel, hpath⟩ := exists_source houts ho
      exact hpath ▸ hq rel hrel
    refine (hfiles.entry q hne).imp ?_
    rintro ⟨o, ho, hway⟩
    obtain ⟨rel, hrel, hpath⟩ := exists_source houts ho
    exact ⟨rel, hrel, hpath ▸ hway⟩

/-- As source text, the outputs never get into each other's way. -/
theorem normalizeUnder_sources (h : Normalizable n s.files input outDir false p) :
    ∃ files, Succeeds (normalizeUnder n outDir false directoryDepth input "") s (sources s.files p).length
      { s with files := files } ∧ Mirror n s.files input outDir false p files := by
  refine normalizeUnder_mirrors h ?_
  have hid : (sources s.files p).map (targetNames false) = sources s.files p := List.map_id _
  rw [hid]
  exact sources_incomparable h.wellFormed p

/-- A request for a directory reports as many files as there are outputs. -/
theorem perform_sources {r : Request} (h : Normalizable n s.files input outDir false p) (hlist : r.listRules = false)
    (hinput : r.input = some input) (hstdin : input ≠ "-") (houtput : r.output = some outDir) (hdump : r.dump = false)
    (stdin : String) :
    ∃ files, Succeeds (perform r n stdin) s () { s with
      files := files
      stderr := s.stderr ++ ("Normalized " ++ toString (sources s.files p).length ++ " files: " ++ input ++ " -> " ++
        outDir) ++ "\n" } ∧ Mirror n s.files input outDir false p files := by
  obtain ⟨files, hrun, hfiles⟩ := normalizeUnder_sources h
  refine ⟨files, ?_, hfiles⟩
  have hdirectory : s.files.isDirectory input = true := (isDirectory_of_resolve h.resolve).mpr h.directory
  unfold perform
  rw [if_neg (by simp [hlist]), hinput]
  split
  next heq => cases heq
  next heq => exact absurd (Option.some.inj heq) hstdin
  next heq =>
    obtain rfl := Option.some.inj heq
    refine Succeeds.bind (succeeds_get s) ?_
    rw [if_pos hdirectory, houtput, hdump]
    exact Succeeds.bind hrun rfl

/-- Two sources whose names differ in the extension only. -/
def twoSources : FileSystem :=
  ((FileSystem.put {} ([] ++ ["src"]) .directory).put (["src"] ++ ["a.js"]) (.file "a;".toUTF8)).put
    (["src"] ++ ["a.mjs"]) (.file "b;".toUTF8)

theorem wellFormed_twoSources : twoSources.WellFormed := by
  have hsrc : IsName "src" := ⟨by decide, by decide, by decide, by decide⟩
  have hjs : IsName "a.js" := ⟨by decide, by decide, by decide, by decide⟩
  have hmjs : IsName "a.mjs" := ⟨by decide, by decide, by decide, by decide⟩
  refine ((wellFormed_empty.put hsrc rfl fun _ => rfl).put hjs rfl ?_).put hmjs rfl ?_
  · exact fun h => nomatch (show none = some FileEntry.directory from h)
  · exact fun h => nomatch (show none = some FileEntry.directory from h)

theorem mem_sources_twoSources : rel ∈ sources twoSources ["src"] ↔ rel = ["a.js"] ∨ rel = ["a.mjs"] := by
  rw [mem_sources wellFormed_twoSources]
  constructor
  · rintro ⟨h, -⟩
    obtain ⟨bytes, hbytes⟩ := h.file
    obtain ⟨before, name, rfl⟩ := (List.eq_nil_or_concat' rel).resolve_left h.ne_nil
    rw [← List.append_assoc] at hbytes
    have hmem := List.mem_map_of_mem (f := (·.1)) (mem_entries_of_entry (h.named name List.mem_concat_self) hbytes)
    have hentries : twoSources.entries.map (·.1) = [["src"], ["src", "a.js"], ["src", "a.mjs"]] := rfl
    rw [hentries, List.append_assoc] at hmem
    simpa using hmem
  · rintro (rfl | rfl)
    · exact ⟨sourceAt_singleton.mpr ⟨⟨by decide, by decide, by decide, by decide⟩, rfl, _, rfl⟩, by decide⟩
    · exact ⟨sourceAt_singleton.mpr ⟨⟨by decide, by decide, by decide, by decide⟩, rfl, _, rfl⟩, by decide⟩

/-- The outputs of the two sources stand side by side. -/
theorem normalizeUnder_sources_twoSources :
    ∃ t, Succeeds (normalizeUnder { table := {}, maxPasses := 1 } "out" false directoryDepth "src" "") { files := twoSources }
        (sources twoSources ["src"]).length t ∧
      t.files.readText "out/a.js" = .ok "a;\n" ∧ t.files.readText "out/a.mjs" = .ok "b;\n" := by
  let n : Normalizer := { table := {}, maxPasses := 1 }
  have hcode (source text : String) (h : (n.normalize source).toOption.map (·.code) = some text) :
      ∃ out, n.normalize source = .ok out ∧ out.code = text := by
    cases hout : n.normalize source with
    | error e =>
      rw [hout] at h
      cases h
    | ok out =>
      rw [hout] at h
      exact ⟨out, rfl, Option.some.inj h⟩
  obtain ⟨a, ha, hacode⟩ := hcode "a;" "a;\n" (by decide +kernel)
  obtain ⟨b, hb, hbcode⟩ := hcode "b;" "b;\n" (by decide +kernel)
  have hreada : twoSources.readText "src/a.js" = .ok "a;" := rfl
  have hreadb : twoSources.readText "src/a.mjs" = .ok "b;" := rfl
  have hclear (path : String) (hway : way path = [["out"]]) (hplace : twoSources.entry? (placeOf path) = none)
      (hne : placeOf path ≠ ["out"]) : Clear twoSources path := by
    refine ⟨?_, by rw [hplace]; exact nofun, by simpa [hway] using hne⟩
    rw [hway, List.forall_mem_singleton, show twoSources.entry? ["out"] = none from rfl]
    exact nofun
  have hnormalizable : Normalizable n twoSources "src" "out" false ["src"] := by
    refine ⟨wellFormed_twoSources, rfl, rfl, ⟨?_, ?_⟩, ?_, ?_⟩
    · show ∀ q ∈ [["out"]], ¬ ["src"] <+: q
      decide
    · intro rel _ hfront
      exact absurd (List.cons_prefix_cons.mp hfront).1 (by decide)
    · intro rel hrel
      rcases mem_sources_twoSources.mp hrel with rfl | rfl
      · exact ⟨⟨_, _⟩, rfl, "a;", a, hreada, ha, rfl⟩
      · exact ⟨⟨_, _⟩, rfl, "b;", b, hreadb, hb, rfl⟩
    · intro rel hrel
      rcases mem_sources_twoSources.mp hrel with rfl | rfl
      · exact hclear _ rfl rfl (by decide)
      · exact hclear _ rfl rfl (by decide)
  obtain ⟨files, hrun, hfiles⟩ := normalizeUnder_sources (s := { files := twoSources }) hnormalizable
  refine ⟨_, hrun, ?_, ?_⟩
  · obtain ⟨source, out, hread, hout, htext⟩ := hfiles.output ["a.js"] (mem_sources_twoSources.mpr (.inl rfl))
    obtain rfl : "a;" = source := Except.ok.inj (hreada.symm.trans hread)
    obtain rfl : a = out := Except.ok.inj (ha.symm.trans hout)
    exact hacode ▸ htext
  · obtain ⟨source, out, hread, hout, htext⟩ := hfiles.output ["a.mjs"] (mem_sources_twoSources.mpr (.inr rfl))
    obtain rfl : "b;" = source := Except.ok.inj (hreadb.symm.trans hread)
    obtain rfl : b = out := Except.ok.inj (hb.symm.trans hout)
    exact hbcode ▸ htext

end Unminify.Command
