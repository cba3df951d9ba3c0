import Mathlib.Data.List.Flatten
import Mathlib.Data.List.Perm.Subperm
import Unminify.Proofs.Grammar.Scanning
import Unminify.Proofs.Pattern.Filling
import Unminify.Proofs.Scope.Outline

/-!
# The contents of what is read

What a parser yields is looked at for the identifiers and the comments in it and for the form of its
phrases. A `Content` lists the identifiers and the comments, together with what is known of the phrases
they come from.

Two things can be said about contents. `Spans` says that the identifiers lie between two places of the
source, where they are spelled, and have distinct positions: as a parser goes on from where the one
before it has stopped, what is read one after the other is distinct as well (`Spans.append`). `Gives`
says that some contents are all that others are made of, so that identifiers between two places stay
between them, and that no comment is lost or doubled on the way.

A reading that is an error contains nothing, and is not *read*: comments may be lost then.
-/

namespace Unminify

namespace Tree

/-- Whether a statement is neither a comment nor a sequence. -/
def isProper : Stmt → Bool
  | .comment _ | .sequence _ => false
  | _ => true

/-- The form of a phrase that was read. Dot accesses are named by strings, methods have no name beside
their key, comments are members of statement lists, a sequence is a body with the comments around it,
and there are no holes. -/
def Formed : {c : Category} → Tree c → Prop
  | _, .methodProp _ _ fn => fn.definedName = Option.none
  | _, .method _ _ _ fn => fn.definedName = Option.none
  | .list .stmt, .cons head _ => head.isProper = true ∨ ∃ text, head = .comment text
  | _, .body s =>
    s.isProper = true ∨
      ∃ (texts : List String) (s' : Stmt), s = .sequence (blockOf (texts.map comment ++ [s'])) ∧ s'.isProper = true
  | _, .nameHole _ | _, .exprHole _ _ | _, .stmtHole _ _ => False
  | _, t => t.dotNamed = true

theorem Formed.dotNamed {c : Category} {t : Tree c} (h : t.Formed) : t.dotNamed = true := by
  cases t <;> first | rfl | exact h

theorem Formed.hole? {c : Category} {t : Tree c} (h : t.Formed) : t.hole? = Option.none := by
  cases t <;> first | rfl | cases h

/-- All phrases of a tree have the form of phrases that were read. -/
def Sourced {c : Category} (t : Tree c) : Prop := t.Everywhere fun p => p.2.Formed

/-- The texts and the positions of the identifiers anywhere in a tree. -/
def spellings {c : Category} (t : Tree c) : List (Option String × Option Nat) :=
  (t.phrases.filterMap identifier?).map fun name => (name.nameText?, name.nameId?)

/-- The texts of the comments anywhere in a tree. -/
def remarks {c : Category} (t : Tree c) : List String := t.phrases.filterMap comment?

section

variable {c : Category} {t : Tree c}

theorem positions_eq_spellings (t : Tree c) : t.positions = t.spellings.map Prod.snd := by
  rw [spellings, List.map_map, List.map_filterMap, positions]
  refine List.filterMap_congr fun p _ => ?_
  obtain ⟨c, p⟩ := p
  cases c <;> rfl

/-- The identifiers of a phrase that is not an identifier itself are those of its parts. -/
theorem spellings_of_parts (h : t.isLeaf = false) : t.spellings = t.parts.flatMap fun p => p.2.spellings := by
  have hself : identifier? ⟨c, t⟩ = Option.none := by
    cases c <;> first | rfl | cases h
  rw [spellings, filterMap_phrases, hself, Option.toList_none, List.nil_append, List.map_flatMap]
  rfl

/-- The comments of a phrase that is not a comment itself are those of its parts. -/
theorem remarks_of_parts (h : t.isLeaf = false) : t.remarks = t.parts.flatMap fun p => p.2.remarks := by
  have hself : comment? ⟨c, t⟩ = Option.none := by
    cases t <;> first | rfl | cases h
  rw [remarks, filterMap_phrases, hself, Option.toList_none, List.nil_append]
  rfl

end

end Tree

namespace Grammar

/-- What is read: identifiers with their positions, comments, what is known of the phrases, and whether
they were read at all. -/
structure Content where
  names : List (Option String × Option Nat)
  comments : List String
  sound : Prop
  read : Prop

namespace Content

/-- The identifiers in some contents. -/
def namesIn (cs : List Content) : List (Option String × Option Nat) := cs.flatMap names

/-- The comments in some contents. -/
def commentsIn (cs : List Content) : List String := cs.flatMap comments

/-- The identifiers in some contents are spelled between two places of the source, and they have
distinct positions. -/
structure Spans (source : String) (cs : List Content) (lo hi : Nat) : Prop where
  within : ∀ r ∈ namesIn cs, ∃ text n, r = (some text, some n) ∧ lo ≤ n ∧ n < hi ∧ Spelled source n text
  distinct : ((namesIn cs).map Prod.snd).Nodup
  sound : ∀ c ∈ cs, c.sound

/-- Some contents hold all identifiers of others, as often as those do, and are known to be sound only
if those are. If the others were read, so were those, and the comments are the same. -/
structure Gives (cs ds : List Content) : Prop where
  names : (namesIn ds).Subperm (namesIn cs)
  sound : (∀ c ∈ cs, c.sound) → ∀ d ∈ ds, d.sound
  read : (∀ d ∈ ds, d.read) → (∀ c ∈ cs, c.read) ∧ (commentsIn ds).Perm (commentsIn cs)

@[simp] theorem namesIn_append (cs ds : List Content) : namesIn (cs ++ ds) = namesIn cs ++ namesIn ds :=
  List.flatMap_append

@[simp] theorem commentsIn_append (cs ds : List Content) :
    commentsIn (cs ++ ds) = commentsIn cs ++ commentsIn ds :=
  List.flatMap_append

section

variable {source : String} {cs ds es : List Content} {lo mid hi : Nat}

theorem Spans.gives (h : Spans source cs lo hi) (hgives : Gives cs ds) : Spans source ds lo hi where
  within r hr := h.within r (hgives.names.subset hr)
  distinct := by
    obtain ⟨names, hperm, hsub⟩ := hgives.names
    exact (hperm.map Prod.snd).nodup_iff.mp (h.distinct.sublist (hsub.map Prod.snd))
  sound := hgives.sound h.sound

theorem Spans.nil : Spans source [] lo hi where
  within _ hi := nomatch hi
  distinct := List.nodup_nil
  sound _ hc := nomatch hc

theorem Spans.mono (h : Spans source cs lo mid) (hmid : mid ≤ hi) : Spans source cs lo hi where
  within r hr := by
    obtain ⟨text, n, rfl, hlo, hn, hspelled⟩ := h.within r hr
    exact ⟨text, n, rfl, hlo, by omega, hspelled⟩
  distinct := h.distinct
  sound := h.sound

/-- What is read behind a place of the source is distinct from what is read before it. -/
theorem Spans.append (h : Spans source cs lo mid) (h' : Spans source ds mid hi) (hlo : lo ≤ mid) (hhi : mid ≤ hi) :
    Spans source (cs ++ ds) lo hi where
  within r hr := by
    rw [namesIn_append, List.mem_append] at hr
    rcases hr with hr | hr
    · obtain ⟨text, n, rfl, hlo, hn, hspelled⟩ := h.within r hr
      exact ⟨text, n, rfl, hlo, by omega, hspelled⟩
    · obtain ⟨text, n, rfl, hn, hhi, hspelled⟩ := h'.within r hr
      exact ⟨text, n, rfl, by omega, hhi, hspelled⟩
  distinct := by
    rw [namesIn_append, List.map_append, List.nodup_append]
    refine ⟨h.distinct, h'.distinct, ?_⟩
    intro i hi j hj hij
    obtain ⟨r, hr, rfl⟩ := List.mem_map.mp hi
    obtain ⟨r', hr', rfl⟩ := List.mem_map.mp hj
    obtain ⟨text, n, rfl, -, hn, -⟩ := h.within r hr
    obtain ⟨text', m, rfl, hm, -, -⟩ := h'.within r' hr'
    cases hij
    omega
  sound := by
    intro c hc
    rcases List.mem_append.mp hc with hc | hc
    · exact h.sound c hc
    · exact h'.sound c hc

theorem Gives.refl : Gives cs cs := ⟨.refl _, id, fun h => ⟨h, .refl _⟩⟩

theorem Gives.trans (h : Gives cs ds) (h' : Gives ds es) : Gives cs es where
  names := h'.names.trans h.names
  sound hc := h'.sound (h.sound hc)
  read he := by
    obtain ⟨hd, hperm'⟩ := h'.read he
    obtain ⟨hc, hperm⟩ := h.read hd
    exact ⟨hc, hperm'.trans hperm⟩

/-- The order of contents does not matter. -/
theorem Gives.of_perm (h : cs.Perm ds) : Gives cs ds where
  names := (h.flatMap_right Content.names).symm.subperm
  sound hc d hd := hc d (h.mem_iff.mpr hd)
  read hd := ⟨fun c hc => hd c (h.mem_iff.mp hc), (h.flatMap_right Content.comments).symm⟩

theorem Gives.append {cs' ds' : List Content} (h : Gives cs ds) (h' : Gives cs' ds') :
    Gives (cs ++ cs') (ds ++ ds') where
  names := by
    rw [namesIn_append, namesIn_append]
    exact h.names.append h'.names
  sound hc := by
    rw [List.forall_mem_append] at hc ⊢
    exact ⟨h.sound hc.1, h'.sound hc.2⟩
  read hd := by
    rw [List.forall_mem_append] at hd
    obtain ⟨hc, hperm⟩ := h.read hd.1
    obtain ⟨hc', hperm'⟩ := h'.read hd.2
    rw [List.forall_mem_append, commentsIn_append, commentsIn_append]
    exact ⟨⟨hc, hc'⟩, hperm.append hperm'⟩

theorem Gives.cons {c : Content} (h : Gives cs ds) : Gives (c :: cs) (c :: ds) :=
  Gives.append (.refl : Gives [c] [c]) h

end

/-! ## Contents of phrases -/

/-- The content of a phrase. -/
def tree {c : Category} (t : Tree c) : Content := ⟨t.spellings, t.remarks, t.Sourced, True⟩

/-- The content of a statement that is neither a comment nor a sequence. -/
def proper (s : Stmt) : Content := { tree s with sound := s.Sourced ∧ s.isProper = true }

/-- The content of a member of a statement list. -/
def member (s : Stmt) : Content :=
  { tree s with sound := s.Sourced ∧ (s.isProper = true ∨ ∃ text, s = .comment text) }

/-- The content of a function whose own name is known. -/
def function (name : Option Name) (fn : Tree .function) : Content :=
  { tree fn with sound := fn.Sourced ∧ fn.definedName = name }

/-- An identifier at a place of the source. -/
def place (text : String) (start : Nat) : Content := ⟨[(some text, some start)], [], True, True⟩

/-- Comments that are not yet placed. -/
def remarks (texts : List String) : Content := ⟨[], texts, True, True⟩

/-- What was not read. -/
def lost : Content := ⟨[], [], True, False⟩

/-- What was not read says nothing about what it is made of. -/
theorem Gives.lost {cs : List Content} : Gives cs [lost] where
  names := List.nil_subperm
  sound _ d hd := by
    obtain rfl := List.mem_singleton.mp hd
    trivial
  read h := (h Content.lost List.mem_cons_self).elim

theorem Gives.remarks_append (texts texts' : List String) :
    Gives [remarks texts, remarks texts'] [remarks (texts ++ texts')] where
  names := .refl _
  sound _ d hd := by
    obtain rfl := List.mem_singleton.mp hd
    trivial
  read _ := ⟨by simp [remarks], by simp [commentsIn, remarks]⟩

/-- Where there are no comments, nothing need be kept. -/
theorem Gives.remarks_nil : Gives [remarks []] [] where
  names := .refl _
  sound _ _ hd := nomatch hd
  read _ := ⟨by simp [remarks], .refl _⟩

theorem Gives.nil_remarks : Gives [] [remarks []] where
  names := .refl _
  sound _ d hd := by
    obtain rfl := List.mem_singleton.mp hd
    trivial
  read _ := ⟨nofun, .refl _⟩

/-- The place of an identifier need not be kept. -/
theorem Gives.place_nil {text : String} {start : Nat} : Gives [place text start] [] where
  names := List.nil_subperm
  sound _ _ hd := nomatch hd
  read _ := ⟨by simp [place], .refl _⟩

theorem namesIn_singleton (c : Content) : namesIn [c] = c.names := List.flatMap_singleton _ _

theorem commentsIn_singleton (c : Content) : commentsIn [c] = c.comments := List.flatMap_singleton _ _

/-- One content gives another with the same identifiers and comments. -/
theorem Gives.one {c d : Content} (hnames : d.names = c.names) (hcomments : d.comments = c.comments)
    (hread : d.read → c.read) (hsound : c.sound → d.sound) : Gives [c] [d] where
  names := by
    rw [namesIn_singleton, namesIn_singleton, hnames]
  sound hc e he := by
    obtain rfl := List.mem_singleton.mp he
    exact hsound (hc c List.mem_cons_self)
  read hd := by
    rw [List.forall_mem_singleton] at hd ⊢
    rw [commentsIn_singleton, commentsIn_singleton, hcomments]
    exact ⟨hread hd, .refl _⟩

/-- What contents say is also known of what is made of them. -/
theorem Gives.also {cs : List Content} {d : Content} {φ : Prop} (h : Gives cs [d])
    (hφ : (∀ c ∈ cs, c.sound) → φ) : Gives cs [{ d with sound := d.sound ∧ φ }] where
  names := h.names
  sound hc e he := by
    obtain rfl := List.mem_singleton.mp he
    exact ⟨h.sound hc d List.mem_cons_self, hφ hc⟩
  read hd := h.read (by simpa using hd)

/-- A phrase is made of contents with the identifiers and comments of its parts, if those say that it is
well formed. -/
theorem Gives.build {c : Category} {t : Tree c} {cs : List Content} (hleaf : t.isLeaf = false)
    (hnames : namesIn cs = namesIn (t.parts.map fun p => tree p.2))
    (hcomments : commentsIn cs = commentsIn (t.parts.map fun p => tree p.2))
    (hread : ∀ c ∈ cs, c.read)
    (hsound : (∀ c ∈ cs, c.sound) → t.Formed ∧ ∀ p ∈ t.parts, p.2.Sourced) : Gives cs [tree t] where
  names := by
    have hparts : namesIn cs = t.spellings := by
      rw [hnames, Tree.spellings_of_parts hleaf, namesIn, List.flatMap_map]
      rfl
    rw [namesIn_singleton, hparts]
    exact .refl _
  sound hparts d hd := by
    obtain rfl := List.mem_singleton.mp hd
    exact Tree.everywhere_iff.mpr (hsound hparts)
  read _ := by
    have hparts : commentsIn cs = t.remarks := by
      rw [hcomments, Tree.remarks_of_parts hleaf, commentsIn, List.flatMap_map]
      rfl
    rw [commentsIn_singleton, hparts]
    exact ⟨hread, .refl _⟩

/-- A phrase is made of its parts. -/
theorem Gives.parts {c : Category} {t : Tree c} {cs : List Content}
    (hcs : (t.parts.map fun p => tree p.2) = cs) (hleaf : t.isLeaf = false) (hform : t.Formed) :
    Gives cs [tree t] := by
  subst hcs
  refine .build hleaf rfl rfl (fun c hc => ?_) fun hsound => ⟨hform, fun p hp => hsound _ (List.mem_map_of_mem hp)⟩
  obtain ⟨p, -, rfl⟩ := List.mem_map.mp hc
  trivial

/-- The parts of a phrase are made of the phrase. -/
theorem Gives.taken {c : Category} {t : Tree c} (hleaf : t.isLeaf = false) :
    Gives [tree t] (t.parts.map fun p => tree p.2) where
  names := by
    have hparts : namesIn (t.parts.map fun p => tree p.2) = t.spellings := by
      rw [Tree.spellings_of_parts hleaf, namesIn, List.flatMap_map]
      rfl
    rw [namesIn_singleton, hparts]
    exact .refl _
  sound hc d hd := by
    obtain ⟨p, hp, rfl⟩ := List.mem_map.mp hd
    exact Tree.Everywhere.part (hc _ List.mem_cons_self) hp
  read _ := by
    have hparts : commentsIn (t.parts.map fun p => tree p.2) = t.remarks := by
      rw [Tree.remarks_of_parts hleaf, commentsIn, List.flatMap_map]
      rfl
    rw [List.forall_mem_singleton, commentsIn_singleton, hparts]
    exact ⟨trivial, .refl _⟩

theorem Gives.ident {text : String} {start : Nat} :
    Gives [place text start] [tree (.ident text (some start))] :=
  .one rfl rfl id fun _ => Tree.everywhere_iff.mpr ⟨rfl, nofun⟩

/-- A list phrase is made of its items. -/
theorem Gives.ofList {c : Category} (ts : List (Tree c))
    (hform : ∀ (h : Tree c) (t : Tree (.list c)), (Tree.cons h t).Formed) : Gives (ts.flatMap fun t => [tree t]) [tree (.ofList ts)] := by
  induction ts with
  | nil => exact .parts rfl rfl rfl
  | cons t ts ih => exact ih.cons.trans (.parts rfl rfl (hform t _))

/-- A statement list grows by a member. -/
theorem Gives.consStmt (s : Stmt) (tail : Tree (.list .stmt)) :
    Gives [member s, tree tail] [tree (.cons s tail)] := by
  refine .build rfl rfl rfl (by simp [member, tree]) fun hsound => ?_
  simp only [List.forall_mem_cons, List.not_mem_nil] at hsound
  simp only [Tree.parts_cons, List.forall_mem_cons, List.not_mem_nil]
  exact ⟨hsound.1.2, hsound.1.1, hsound.2.1, fun _ h => h.elim⟩

/-- A method is made of its key and a function without a name of its own. -/
theorem Gives.method {c : Category} {t : Tree c} {key : Tree .key} {fn : Tree .function}
    (hleaf : t.isLeaf = false) (hparts : t.parts = [⟨_, key⟩, ⟨_, fn⟩])
    (hform : fn.definedName = none → t.Formed) : Gives [tree key, function none fn] [tree t] := by
  refine .build hleaf (hparts ▸ rfl) (hparts ▸ rfl) (by simp [function, tree]) fun hsound => ?_
  simp only [List.forall_mem_cons, List.not_mem_nil] at hsound
  simp only [hparts, List.forall_mem_cons, List.not_mem_nil]
  exact ⟨hform hsound.2.1.2, hsound.1, hsound.2.1.1, fun _ h => h.elim⟩

/-- A statement list is made of its members. -/
theorem Gives.blockOf (ss : List Stmt) : Gives (ss.flatMap fun s => [member s]) [tree (.blockOf ss)] := by
  refine .trans ?_ (.parts rfl rfl rfl)
  induction ss with
  | nil => exact .parts rfl rfl rfl
  | cons s ss ih => exact ih.cons.trans (.consStmt s _)

/-- Comments become members of a statement list. -/
theorem Gives.comments (texts : List String) :
    Gives [remarks texts] (texts.map fun text => member (.comment text)) where
  names := by
    induction texts with
    | nil => exact .refl _
    | cons text texts ih => exact ih
  sound _ d hd := by
    obtain ⟨text, -, rfl⟩ := List.mem_map.mp hd
    exact ⟨Tree.everywhere_iff.mpr ⟨rfl, nofun⟩, .inr ⟨text, rfl⟩⟩
  read _ := by
    have hcomments : ∀ texts : List String,
        commentsIn (texts.map fun text => member (.comment text)) = texts := by
      intro texts
      induction texts with
      | nil => rfl
      | cons text texts ih => exact congrArg (text :: ·) ih
    refine ⟨by simp [remarks], ?_⟩
    rw [hcomments, commentsIn_singleton]
    exact .refl _

/-! ## Contents of readings -/

section

variable {α β γ : Type} {f : α → List Content} {g : β → List Content}

/-- The contents of what is there, if it is. -/
def ifPresent (f : α → List Content) : Option α → List Content
  | some a => f a
  | none => []

theorem flatMap_ifPresent (f : α → List Content) (xs : List (Option α)) :
    xs.flatMap (ifPresent f) = (xs.filterMap id).flatMap f := by
  induction xs with
  | nil => rfl
  | cons x xs ih => cases x <;> simp [ifPresent, ih]

theorem flatMap_ifPresent_map (f : α → List Content) (k : γ → α) (xs : List (Option γ)) :
    (xs.map fun x => x.map k).flatMap (ifPresent f) = xs.flatMap (ifPresent fun x => f (k x)) := by
  induction xs with
  | nil => rfl
  | cons x xs ih => cases x <;> simp [ifPresent, ih]

/-- The contents of a reading. -/
def reading (f : α → List Content) : Reading α → List Content
  | .ok a => f a
  | .error _ => [lost]

/-- The contents of a phrase that was read. -/
def phrase {c : Category} (r : Reading (Tree c)) : List Content := reading (fun t => [tree t]) r

/-- The contents of several phrases that were read. -/
def phrases {c : Category} (r : Reading (List (Tree c))) : List Content :=
  reading (fun ts => ts.flatMap fun t => [tree t]) r

/-- An optional phrase is made of the phrase that is there. -/
theorem Gives.ofOption {c : Category} (t : Option (Tree c)) :
    Gives (ifPresent (fun t => [tree t]) t) [tree (.ofOption t)] := by
  cases t <;> exact .parts rfl rfl rfl

theorem Gives.ofOptions {c : Category} (ts : List (Option (Tree c))) :
    Gives (ts.flatMap (ifPresent fun t => [tree t])) [tree (.ofList (ts.map .ofOption))] := by
  induction ts with
  | nil => exact .parts rfl rfl rfl
  | cons t ts ih => exact (Gives.append (.ofOption t) ih).trans (.parts rfl rfl rfl)

/-- What is made of a phrase that was read. -/
theorem Gives.map {c d : Category} (k : Tree c → Tree d) (hk : ∀ t, Gives [tree t] [tree (k t)])
    (r : Reading (Tree c)) : Gives (phrase r) (phrase (k <$> r)) := by
  cases r with
  | error => exact .lost
  | ok t => exact hk t

/-- What is made of two phrases that were read. -/
theorem Gives.map₂ {c d e : Category} (k : Tree c → Tree d → Tree e)
    (hk : ∀ t u, Gives [tree t, tree u] [tree (k t u)]) (r : Reading (Tree c)) (r' : Reading (Tree d)) :
    Gives (phrase r ++ phrase r') (phrase (k <$> r <*> r')) := by
  cases r with
  | error => exact .lost
  | ok t =>
    cases r' with
    | error => exact .lost
    | ok u => exact hk t u

theorem Gives.bind₂ {c d e : Category} (k : Tree c → Tree d → Tree e)
    (hk : ∀ t u, Gives [tree t, tree u] [tree (k t u)]) (r : Reading (Tree c)) (r' : Reading (Tree d)) :
    Gives (phrase r ++ phrase r') (phrase do return k (← r) (← r')) := by
  cases r with
  | error => exact .lost
  | ok t =>
    cases r' with
    | error => exact .lost
    | ok u => exact hk t u

/-- What is made of several things, if none of them yields an error. -/
theorem Gives.mapM {k : α → Reading β} (hk : ∀ a, Gives (f a) (reading g (k a))) (as : List α) :
    Gives (as.flatMap f) (reading (fun bs => bs.flatMap g) (as.mapM k)) := by
  induction as with
  | nil => exact .refl
  | cons a as ih =>
    rw [List.mapM_cons]
    have ha := hk a
    cases hread : k a with
    | error => exact .lost
    | ok b =>
      cases hall : as.mapM k with
      | error => exact .lost
      | ok bs =>
        rw [hread] at ha
        rw [hall] at ih
        exact ha.append ih

/-- Readings of several phrases. -/
theorem Gives.ofAll {c : Category} (k : γ → Reading (Tree c)) (xs : List γ) :
    Gives (xs.flatMap fun x => phrase (k x)) (phrases (readAll (xs.map k))) := by
  rw [← List.flatMap_map]
  exact .mapM (fun _ => .refl) _

/-- Readings of several phrases that were collected in reverse. -/
theorem Gives.ofReverse {c : Category} (rs : List (Reading (Tree c))) :
    Gives (rs.flatMap phrase) (phrases (readAll rs.reverse)) :=
  .trans (.of_perm (rs.reverse_perm.symm.flatMap_right _)) (.mapM (fun _ => .refl) _)

/-- Readings of the elements of a list. -/
theorem Gives.ofElements (rs : List (Option (Reading α))) :
    Gives (rs.flatMap (ifPresent (reading f)))
      (reading (fun as => as.flatMap (ifPresent f)) (readElements rs)) := by
  refine .mapM (fun r => ?_) rs
  cases r with
  | none => exact .refl
  | some r => cases r <;> exact .refl

/-- What is made of a list phrase whose items were read. -/
theorem Gives.listed {c d : Category} (k : Tree (.list c) → Tree d) (hk : ∀ t, Gives [tree t] [tree (k t)])
    (hform : ∀ (h : Tree c) (t : Tree (.list c)), (Tree.cons h t).Formed) (r : Reading (List (Tree c))) :
    Gives (phrases r) (phrase do return k (.ofList (← r))) := by
  cases r with
  | error => exact .lost
  | ok ts => exact (Gives.ofList ts hform).trans (hk _)

/-- What is made of a list phrase whose elements were read. -/
theorem Gives.elements {c d : Category} (k : Tree (.list (.option c)) → Tree d)
    (hk : ∀ t, Gives [tree t] [tree (k t)]) (found : List (Option (Reading (Tree c)))) :
    Gives (found.flatMap (ifPresent phrase))
      (phrase do return k (.ofList ((← readElements found).map .ofOption))) := by
  refine .trans (.ofElements found) ?_
  cases readElements found with
  | error => exact .lost
  | ok ts => exact (Gives.ofOptions ts).trans (hk _)

end

end Content

end Grammar

end Unminify
