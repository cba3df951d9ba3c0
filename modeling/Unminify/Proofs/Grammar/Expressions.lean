import Unminify.Grammar.Expression
import Unminify.Proofs.Grammar.Reads

/-!
# What is read of expressions
-/

namespace Unminify.Grammar

open Character Content Unminify.Grammar.Parser

/-- The content of a pattern in one of its readings. -/
def Target.content (asExpr : Bool) (t : Target) : List Content :=
  match asExpr with
  | true => phrase t.asExpr
  | false => phrase t.asBinder

/-- The content of a member of an object pattern in one of its readings. -/
def MemberTarget.content (asExpr : Bool) (t : MemberTarget) : List Content :=
  match asExpr with
  | true => phrase t.asExpr
  | false => phrase t.asBinder

/-- The content of a statement. -/
def Statement.content (s : Statement) : List Content := Content.reading (fun t => [proper t]) s.reading

/-- What the phrases that other phrases refer to read. -/
structure Rules.Sound (rules : Rules) : Prop where
  expression : ∀ ctx, Reads [] (rules (.expression ctx)) phrase
  expressions : ∀ ctx, Reads [] (rules (.expressions ctx)) phrase
  operation : ∀ ctx least, Reads [] (rules (.operation ctx least)) phrase
  operand : ∀ ctx, Reads [] (rules (.operand ctx)) phrase
  pattern : ∀ asExpr, Reads [] (rules .pattern) (Target.content asExpr)
  statement : Reads [] (rules .statement) Statement.content
  block : Reads [] (rules .block) phrase
  classRest : Reads [] (rules .classRest) phrase
  markup : Reads [] (rules .markup) fun _ => [lost]

variable {rules : Rules} (hr : rules.Sound)

include hr

/-! ## Keys and patterns -/

theorem reads_propertyKey : Reads [] (propertyKey rules) phrase := by
  refine .bind (reads_of_looks looks_peek) fun token => ?_
  split
  · exact .bind reads_advance fun _ => .pure (.parts rfl rfl rfl)
  · exact .bind reads_advance fun _ => .pure (.parts rfl rfl rfl)
  · exact .bind reads_advance fun _ => .pure (.parts rfl rfl rfl)
  · refine .bind reads_advance fun _ => ?_
    split
    · exact .pure (.parts rfl rfl rfl)
    · exact .pure .lost
  · refine .bind reads_advance fun _ => .bind (hr.expression _) fun e => ?_
    refine .bind (reads_mark "]") fun _ => .pure ?_
    exact .map .computedKey (fun _ => .parts rfl rfl rfl) e
  · exact reads_failure

theorem reads_patternWithDefault (asExpr : Bool) :
    Reads [] (patternWithDefault rules) (Target.content asExpr) := by
  refine .bind (hr.pattern asExpr) fun p => .bind (reads_mark? "=") fun found => ?_
  split
  · refine .bind ((hr.expression _).frame _) fun value => .pure ?_
    cases asExpr with
    | true => exact .map₂ (.assign .assign) (fun _ _ => .parts rfl rfl rfl) p.asExpr value
    | false => exact .map₂ .defaultBinder (fun _ _ => .parts rfl rfl rfl) p.asBinder value
  · exact .pure .refl

theorem reads_arrayPattern (asExpr : Bool) : Reads [] (arrayPattern rules) (Target.content asExpr) := by
  refine .bind (reads_mark "[") fun _ => ?_
  refine .bind (reads_elements "]" (reads_patternWithDefault hr asExpr)) fun found => .pure ?_
  cases asExpr with
  | true =>
    have h := Gives.elements .array (fun _ => .parts rfl rfl rfl) (found.map fun t => t.map Target.asExpr)
    rw [flatMap_ifPresent_map] at h
    exact h
  | false =>
    have h := Gives.elements .arrayBinder (fun _ => .parts rfl rfl rfl)
      (found.map fun t => t.map Target.asBinder)
    rw [flatMap_ifPresent_map] at h
    exact h

theorem reads_keyedTarget (asExpr : Bool) :
    Reads [] (keyedTarget rules) (MemberTarget.content asExpr) := by
  refine .bind (reads_propertyKey hr) fun key => .bind (reads_mark ":") fun _ => ?_
  refine .bind ((reads_patternWithDefault hr asExpr).frame _) fun value => .pure ?_
  cases asExpr with
  | true => exact .map₂ .keyed (fun _ _ => .parts rfl rfl rfl) key value.asExpr
  | false => exact .map₂ .keyedBinder (fun _ _ => .parts rfl rfl rfl) key value.asBinder

theorem reads_shorthandTarget (asExpr : Bool) :
    Reads [] (shorthandTarget rules) (MemberTarget.content asExpr) := by
  refine .bind reads_name fun r => .bind (reads_mark? "=") fun found => ?_
  have hident : Gives [place r.1 r.2] [tree (.ident r.1 (some r.2))] := .ident
  split
  · refine .bind ((hr.expression _).frame _) fun value => .pure ?_
    cases value with
    | error => cases asExpr <;> exact .lost
    | ok value =>
      cases asExpr with
      | true =>
        have hname : Gives [place r.1 r.2] [tree (.identExpr (.ident r.1 (some r.2)))] :=
          hident.trans (.parts rfl rfl rfl)
        have hassign : Gives [place r.1 r.2, tree value]
            [tree (.assign .assign (.identExpr (.ident r.1 (some r.2))) value)] :=
          (hname.append .refl).trans (.parts rfl rfl rfl)
        have hkey : Gives [] [tree (.nameKey r.1)] := .parts rfl rfl rfl
        exact (hkey.append hassign).trans (.parts rfl rfl rfl)
      | false =>
        have hvalue : Gives [tree value] [tree (.some value)] := .parts rfl rfl rfl
        exact (hident.append hvalue).trans (.parts rfl rfl rfl)
  · refine .pure ?_
    cases asExpr with
    | true => exact hident.trans (.parts rfl rfl rfl)
    | false =>
      have hnone : Gives [] [tree (.none : Tree (.option .expr))] := .parts rfl rfl rfl
      exact (hident.append hnone).trans (.parts rfl rfl rfl)

theorem reads_objectPatternWith (asExpr : Bool) {nested : Parser Unit}
    (hnested : Reads [] nested fun _ => [lost]) :
    Reads [] (objectPatternWith rules nested) (Target.content asExpr) := by
  refine .bind (reads_mark _) fun _ => ?_
  refine .bind (reads_elements _ (?_ : Reads [] _ (MemberTarget.content asExpr))) fun found => .pure ?_
  · refine .orElse ?_ (.orElse (reads_keyedTarget hr asExpr)
      (.orElse (reads_shorthandTarget hr asExpr) ?_))
    · refine .bind (reads_mark _) fun _ => .bind (hr.pattern asExpr) fun p => .pure ?_
      cases asExpr with
      | true => exact .map .spreadProp (fun _ => .parts rfl rfl rfl) p.asExpr
      | false => exact .map .restProp (fun _ => .parts rfl rfl rfl) p.asBinder
    · refine .bind (reads_unsupported [lost] _ _ ?_) fun e => .pure (by cases asExpr <;> exact .lost)
      exact .bind hnested fun _ => .bind (reads_mark _) fun _ => (hr.expression _).lose
  · rw [flatMap_ifPresent]
    cases asExpr with
    | true =>
      exact (Gives.ofAll MemberTarget.asExpr _).trans
        (.listed .object (fun _ => .parts rfl rfl rfl) (fun _ _ => rfl) _)
    | false =>
      exact (Gives.ofAll MemberTarget.asBinder _).trans
        (.listed .objectBinder (fun _ => .parts rfl rfl rfl) (fun _ _ => rfl) _)

theorem reads_destructuring (asExpr : Bool) :
    Reads [] (destructuring rules) (Target.content asExpr) := by
  refine .orElse (reads_arrayPattern hr asExpr) (reads_objectPatternWith hr asExpr ?_)
  refine .bind (reads_of_looks (looks_atMark _)) fun _ => ?_
  refine .bind (reads_of_looks (looks_atMark _)) fun _ => ?_
  refine .bind (reads_of_looks (looks_require _)) fun _ => ?_
  exact (hr.pattern true).lose

theorem reads_declaredTarget (asExpr : Bool) :
    Reads [] (declaredTarget rules) (Target.content asExpr) := by
  refine .orElse (reads_destructuring hr asExpr) ?_
  refine .bind reads_identifier fun ident => .pure ?_
  cases asExpr <;> exact .parts rfl rfl rfl

theorem reads_parameters : Reads [] (parameters rules) phrases := by
  refine .bind (reads_mark _) fun _ => ?_
  refine .bind (reads_items _ (reads_patternWithDefault hr false)) fun found => .pure ?_
  exact .ofAll Target.asBinder found

/-! ## Functions and classes -/

theorem reads_decorator : Reads [] (decorator rules) fun _ => [] := by
  refine reads_leftOut (?_ : Reads [] _ fun _ => [lost])
  refine .bind (reads_mark _) fun _ => .bind (reads_of_looks (looks_atMark _)) fun _ => ?_
  split
  · refine .bind (reads_mark _) fun _ => .bind (hr.expressions _).lose fun _ => ?_
    exact reads_mark _
  · refine .bind reads_name.lose fun _ => ?_
    refine .bind (reads_repeatFrom (fun _ => [lost]) .refl fun _ => ?_) fun _ => ?_
    · refine .bind (reads_mark? _) fun _ => ?_
      split
      · exact .bind (.discard (reads_accept _)) fun _ => .pure .refl
      · exact .pure .refl
    · refine .bind (reads_mark? _) fun _ => ?_
      split
      · exact (reads_elements _ (hr.expression _)).lose
      · exact .pure .refl

theorem reads_decorators : Reads [] (decorators rules) fun _ => [] := by
  refine reads_repeatFrom (fun _ => []) .refl fun _ => ?_
  refine .bind (reads_of_looks (looks_atMark _)) fun _ => ?_
  split
  · exact .bind (reads_decorator hr) fun _ => .pure .refl
  · exact .pure .refl

/-- The content of a function that was read, whose own name is known. -/
def functionNamed (name : Option Name) (r : Reading (Tree .function)) : List Content :=
  reading (fun fn => [function name fn]) r

/-- The content of a method. -/
def Method.content (m : Method) : List Content := phrase m.key ++ functionNamed none m.function

theorem reads_functionRest (isAsync isGenerator : Bool) (name : Tree (.option .name)) :
    Reads [tree name] (functionRest rules isAsync isGenerator name) (functionNamed name.toOption) := by
  refine .bind ((reads_parameters hr).frame _) fun params => ?_
  refine .bind (hr.block.frame _) fun body => .pure ?_
  cases params with
  | error => exact .lost
  | ok params =>
    cases body with
    | error => exact .lost
    | ok body =>
      have hparams : Gives (params.flatMap fun t => [tree t]) [tree (.ofList params)] :=
        .ofList params fun _ _ => rfl
      have hfn : Gives [tree name, tree (.ofList params), tree body]
          [tree (.function isAsync isGenerator name (.ofList params) body)] := .parts rfl rfl rfl
      refine .trans ((Gives.cons hparams).append (.refl : Gives [tree body] [tree body])) ?_
      exact hfn.trans (.one rfl rfl id fun h => ⟨h, rfl⟩)

omit hr in
/-- The words of a method's modifiers hold nothing. -/
theorem reads_parse (m : Modifiers) (breakEnds : Bool) : Reads [] (m.parse breakEnds) fun _ => [] := by
  have hmodifier : ∀ text, Reads [] (do
      word text
      if breakEnds then require !(← atSemicolon false)) fun _ => [] := by
    intro text
    refine .bind (reads_word text) fun _ => ?_
    split
    · exact .bind (reads_of_looks (looks_atSemicolon _)) fun _ => reads_of_looks (looks_require _)
    · exact .pure .refl
  simp only [Modifiers.parse]
  refine .when (hmodifier _) ?_
  refine .when (hmodifier _) ?_
  split
  · split
    · exact reads_word _
    · exact hmodifier _
  · exact hmodifier _
  · split
    · exact reads_mark _
    · exact .pure .refl

theorem reads_method (breakEnds : Bool) : Reads [] (method rules breakEnds) Method.content := by
  refine .bind (reads_decorators hr) fun _ => ?_
  refine Reads.via (fun r => phrase r.2) (reads_foldr_orElse (fun m => ?_) _) fun r => ?_
  · refine .bind (reads_parse m breakEnds) fun _ => .bind (reads_propertyKey hr) fun key => ?_
    refine .bind (reads_of_looks (looks_atMark _)) fun _ => ?_
    exact .bind (reads_of_looks (looks_require _)) fun _ => .pure .refl
  · have hnone : Gives [] [tree (.none : Tree (.option .name))] := .parts rfl rfl rfl
    refine .bind ((Reads.of_gives hnone (reads_functionRest hr _ _ _)).frame _) fun fn => ?_
    exact .pure .refl

theorem reads_keywordFunction (named : Bool) : Reads [] (keywordFunction rules named) phrase := by
  refine .bind (reads_word? _) fun isAsync => .bind (reads_word _) fun _ => ?_
  refine .bind (reads_mark? _) fun isGenerator => ?_
  have hrest : ∀ name : Option Name, Reads (ifPresent (fun n => [tree n]) name)
      (functionRest rules isAsync isGenerator (.ofOption name)) phrase := by
    intro name
    refine .of_gives (.ofOption name) ((reads_functionRest hr _ _ _).gives fun r => ?_)
    cases r with
    | error => exact .lost
    | ok fn => exact .one rfl rfl id And.left
  cases named with
  | true => exact .bind (.map reads_identifier) hrest
  | false => exact .bind reads_identifier.perhaps hrest

/-- A field from its key on. -/
theorem reads_fieldRest (isStatic : Bool) : Reads [] (do
    let key ← propertyKey rules
    let value ← perhaps do
      mark "="
      rules (.expression .final)
    discard (semicolon value.isSome)
    return some (do
      let value ← match value with
        | some e => some <$> e
        | none => pure none
      return Tree.field isStatic (← key) (.ofOption value))) (ifPresent phrase) := by
  refine .bind (reads_propertyKey hr) fun key => ?_
  refine .bind (Reads.frame (.perhaps (.bind (reads_mark _) fun _ => hr.expression _)) _) fun value => ?_
  refine .bind ((reads_semicolon _).discard) fun _ => .pure ?_
  cases key with
  | error => rcases value with _ | _ | value <;> exact .lost
  | ok key =>
    have hfield : ∀ value : Option Expr, Gives ([tree key] ++ ifPresent (fun t => [tree t]) value)
        [tree (.field isStatic key (.ofOption value))] :=
      fun value => (Gives.append .refl (.ofOption value)).trans (.parts rfl rfl rfl)
    rcases value with _ | _ | value
    · exact hfield none
    · exact .lost
    · exact hfield (some value)

theorem reads_field (isStatic : Bool) : Reads [] (do
    decorators rules
    if isStatic then
      word "static"
      require !(← atSemicolon false)
    let key ← propertyKey rules
    let value ← perhaps do
      mark "="
      rules (.expression .final)
    discard (semicolon value.isSome)
    return some (do
      let value ← match value with
        | some e => some <$> e
        | none => pure none
      return Tree.field isStatic (← key) (.ofOption value))) (ifPresent phrase) := by
  refine .bind (reads_decorators hr) fun _ => ?_
  have hrest := reads_fieldRest hr isStatic
  cases isStatic with
  | false => exact hrest
  | true =>
    refine .bind (reads_word _) fun _ => .bind (reads_of_looks (looks_atSemicolon _)) fun _ => ?_
    exact .bind (reads_of_looks (looks_require _)) fun _ => hrest

theorem reads_classMember : Reads [] (classMember rules) (ifPresent phrase) := by
  refine .orElse ?_ (.orElse ?_ (.orElse ?_ (.orElse (reads_field hr true) (reads_field hr false))))
  · exact .bind (reads_mark _) fun _ => .pure .refl
  · refine .bind (reads_word _) fun _ => .bind hr.block fun body => .pure ?_
    exact .map .staticBlock (fun _ => .parts rfl rfl rfl) body
  · refine .bind (reads_method hr _) fun m => .bind (.discard (reads_mark? _)) fun _ => .pure ?_
    obtain ⟨kind, isStatic, key, fn⟩ := m
    cases key with
    | error => exact .lost
    | ok key =>
      cases fn with
      | error => exact .lost
      | ok fn => exact .method rfl rfl id

theorem reads_classRest : Reads [] (classRest rules) phrase := by
  refine .bind reads_identifier.perhaps fun name => ?_
  refine .bind (Reads.frame (.perhaps (.bind (reads_word _) fun _ => hr.expression _)) _) fun heritage => ?_
  refine .bind (reads_mark _) fun _ => ?_
  refine .bind (reads_repeatFrom (fun members => ifPresent (fun n => [tree n]) name ++
    ifPresent phrase heritage ++ members.flatMap phrase) ?_ fun members => ?_) fun members => .pure ?_
  · exact .of_perm (by simp)
  · refine .bind (reads_mark? _) fun _ => ?_
    split
    · exact .pure .refl
    · refine .bind ((reads_classMember hr).frame _) fun m => .pure ?_
      rw [List.append_assoc]
      cases m with
      | none => exact .append .refl (.of_perm (by simp [ifPresent]))
      | some m => exact .append .refl (.of_perm List.perm_append_comm)
  · have hmembers := Gives.ofReverse members
    cases hread : readAll members.reverse with
    | error => rcases heritage with _ | _ | heritage <;> exact .lost
    | ok ms =>
      rw [hread] at hmembers
      have hclass : ∀ heritage : Option Expr, Gives
          (ifPresent (fun n => [tree n]) name ++ ifPresent (fun t => [tree t]) heritage ++ phrases (.ok ms))
          [tree (.classDef (.ofOption name) (.ofOption heritage) (.ofList ms))] := fun heritage =>
        (((Gives.ofOption name).append (.ofOption heritage)).append (.ofList ms fun _ _ => rfl)).trans
          (.parts rfl rfl rfl)
      rcases heritage with _ | _ | heritage
      · exact (Gives.append .refl hmembers).trans (hclass none)
      · exact .lost
      · exact (Gives.append .refl hmembers).trans (hclass (some heritage))

/-! ## Literals and markup -/

omit hr in
theorem reads_regex : Reads [] regex fun e => [tree e] := by
  refine .get fun source s => .standing fun hs => .look (looks_require _) fun _ hslash => ?_
  obtain ⟨behind, hhere⟩ : ∃ behind, s.next.here = '/' :: behind := by
    have htoken := require_eq_some hslash
    simp only [Bool.or_eq_true, beq_iff_eq] at htoken
    rcases htoken with htoken | htoken
    all_goals
      have htext := hs.placed.here_eq (by rw [htoken]; nofun)
      rw [htoken] at htext
      exact ⟨_, htext⟩
  split
  next pattern rest hpattern =>
    rw [hhere, List.drop_succ_cons, List.drop_zero] at hpattern
    have hflags : ∀ c ∈ rest.takeWhile fun c => 'a' ≤ c && c ≤ 'z', ('a' ≤ c && c ≤ 'z') = true :=
      List.all_eq_true.mp List.all_takeWhile
    have hrest := List.takeWhile_append_dropWhile (p := fun c => decide ('a' ≤ c) && decide (c ≤ 'z')) (l := rest)
    have hbehind := regexPattern_text hpattern
    rw [hbehind, ← hrest] at hpattern
    refine .look (looks_require _) fun _ _ =>
      .bind (readsFrom_resumeAt ?_ (.regex hpattern hflags) (.inl (by rw [hhere]; nofun)) ?_) fun _ => ?_
    · rw [hhere, hbehind, List.append_assoc, List.cons_append, List.cons_append, hrest]
    · have hsmall := byteLength_of_small fun c hc =>
        utf8Size_of_le (of_decide_eq_true ((Bool.and_eq_true _ _).mp (hflags c hc)).2)
      have hslash : '/'.utf8Size = 1 := by decide
      simp only [byteLength_append, byteLength_cons, hsmall, hslash]
      omega
    · exact .pure (.parts rfl rfl rfl)
  · exact Reads.from reads_failure

theorem reads_template : Reads [] (template rules) fun r => phrases r.2 := by
  refine .bind (reads_of_looks (looks_atMark _)) fun _ => ?_
  refine .bind (reads_of_looks (looks_require _)) fun _ => ?_
  refine .bind (reads_repeatFrom (fun r => r.2.flatMap phrase) .refl fun r => ?_)
    fun r => .pure (.ofReverse r.2)
  refine .get fun source s => .standing fun hs => .look (looks_require _) fun _ hmark => ?_
  obtain ⟨mark, hmem, hsize, hhere, hstop⟩ : ∃ mark, mark ∈ ['\x60', '\x7d'] ∧ mark.utf8Size = 1 ∧
      s.next.here = mark :: s.next.rest ∧ s.next.stop = s.next.start + 1 := by
    have htoken := require_eq_some hmark
    simp only [Bool.or_eq_true, beq_iff_eq] at htoken
    rcases htoken with htoken | htoken
    all_goals
      have htext := hs.placed.here_eq (by rw [htoken]; nofun)
      have hstop := hs.placed.stop
      rw [htoken] at htext hstop
      exact ⟨_, by decide, by decide, htext, hstop⟩
  dsimp only
  split
  next chunk ends rest hchunk =>
    have htext := templateChunk_text hchunk
    have hstretch : Stretch (mark :: chunk ++ if ends then ['\x60'] else ['$', '\x7b']) rest :=
      .chunk hmem (htext ▸ hchunk)
    have hbehind : s.next.here = (mark :: chunk ++ if ends then ['\x60'] else ['$', '\x7b']) ++ rest := by
      rw [hhere, htext, List.cons_append, List.cons_append]
    cases ends with
    | true =>
      refine .bind (readsFrom_resumeAt hbehind hstretch (.inl (by rw [hhere]; nofun)) ?_) fun _ => .pure .refl
      have hend : byteLength ['\x60'] = 1 := by decide
      simp only [hstop, byteLength_append, byteLength_cons, hsize, if_true, hend]
      omega
    | false =>
      refine .bind (readsFrom_resumeAt hbehind hstretch (.inl (by rw [hhere]; nofun)) ?_) fun _ => ?_
      · have hend : byteLength ['$', '\x7b'] = 2 := by decide
        simp only [hstop, byteLength_append, byteLength_cons, hsize, Bool.false_eq_true, if_false, hend]
        omega
      refine .bind ((hr.expressions _).frame _) fun e => .bind (reads_of_looks (looks_atMark _)) fun _ => ?_
      exact .bind (reads_of_looks (looks_require _)) fun _ => .pure (.of_perm List.perm_append_comm)
  next => exact Reads.from reads_failure

namespace Markup

omit hr

section

variable {before : List Content}

theorem reads_char {c : Char} (h : c ∈ ['<', '>', '/']) : Reads before (char c) fun _ => before := by
  refine .get fun source s => .look (looks_require _) fun _ hhead => ?_
  obtain ⟨behind, hhere⟩ := List.head?_eq_some_iff.mp (eq_of_beq (require_eq_some hhead))
  have hsize : ∀ c ∈ ['<', '>', '/'], c.utf8Size = 1 := List.forall_iff_forall_mem.mp (by decide)
  refine readsFrom_resumeAt (?_ : _ = [c] ++ _) (.markup (.mark h)) (.inl (by rw [hhere]; nofun)) ?_
  · rw [hhere]
    rfl
  · rw [byteLength_cons, byteLength_nil, hsize c h]

theorem reads_charAndText {c : Char} (h : c ∈ ['>', '\x7d']) :
    Reads before (charAndText c) fun _ => before := by
  refine .get fun source s => .look (looks_require _) fun _ hhead => ?_
  obtain ⟨behind, hhere⟩ := List.head?_eq_some_iff.mp (eq_of_beq (require_eq_some hhead))
  have hsize : ∀ c ∈ ['>', '\x7d'], c.utf8Size = 1 := List.forall_iff_forall_mem.mp (by decide)
  dsimp only
  rw [hhere, List.drop_succ_cons, List.drop_zero]
  have htext : MarkupText (c :: behind.takeWhile fun c => !"<>\x7b\x7d".toList.contains c) :=
    .text h fun d hd => by simpa using List.all_eq_true.mp List.all_takeWhile d hd
  refine readsFrom_resumeAt ?_ (.markup htext) (.inl (by rw [hhere]; nofun)) ?_
  · rw [hhere, List.cons_append, List.takeWhile_append_dropWhile]
  · rw [byteLength_cons, hsize c h, Nat.add_assoc]

theorem reads_tagName : Reads before tagName fun _ => before := by
  refine .get fun source s => .look (looks_require _) fun _ hhead => ?_
  have hthere : s.next.here ≠ [] := by
    intro hnil
    rw [hnil] at hhead
    cases hhead
  refine readsFrom_resumeAt ?_ (.markup (.name (List.all_eq_true.mp List.all_takeWhile))) (.inl hthere) rfl
  exact List.takeWhile_append_dropWhile.symm

theorem looks_ahead (text : String) : Looks (ahead text) := .bind looks_get fun _ => looks_pure _

theorem ahead_eq_some {text : String} {s s' : State} {found : Bool} (h : ahead text s = some (found, s')) :
    found = (after? text.toList s.next.here).isSome := by
  cases h
  rfl

theorem reads_quoted : Reads before quoted fun _ => before := by
  refine .get fun source s => ?_
  dsimp only
  split
  next q cs hhere =>
    refine .look (looks_require _) fun _ hquote => ?_
    split
    next q' rest hrest =>
      have hmem : q ∈ ['"', '\x27'] := by simpa using require_eq_some hquote
      have hsize : ∀ q ∈ ['"', '\x27'], q.utf8Size = 1 := List.forall_iff_forall_mem.mp (by decide)
      have hclose := List.head?_dropWhile_not (· != q) cs
      obtain rfl : q' = q := by simpa [hrest] using hclose
      have hcs := List.takeWhile_append_dropWhile (p := (· != q')) (l := cs)
      have htext : MarkupText (q' :: cs.takeWhile (· != q') ++ [q']) :=
        .quoted hmem fun hq => by simpa using List.all_eq_true.mp List.all_takeWhile q' hq
      refine readsFrom_resumeAt ?_ (.markup htext) (.inl (by rw [hhere]; nofun)) ?_
      · rw [hhere, List.append_assoc, List.cons_append, List.singleton_append, ← hrest, hcs]
      · simp only [byteLength_append, byteLength_cons, byteLength_nil, hsize q' hmem]
        omega
    · exact Reads.from reads_failure
  · exact Reads.from reads_failure

end

include hr

theorem reads_braced : Reads [lost] (braced rules) fun _ => [lost] := by
  refine .bind (reads_mark _) fun _ => .bind (reads_of_looks (looks_atMark _)) fun _ => ?_
  split
  · exact .pure .refl
  · refine .bind (.discard (reads_mark? _)) fun _ => .bind (hr.expressions _).lose fun _ => ?_
    exact .bind (reads_of_looks (looks_atMark _)) fun _ => reads_of_looks (looks_require _)

theorem reads_whole : Reads [lost] (whole rules) fun _ => [lost] :=
  .bind hr.markup.lose fun _ => reads_char (by decide)

theorem reads_tagAttribute : Reads [lost] (tagAttribute rules) fun _ => [lost] := by
  refine .bind (reads_of_looks (looks_atMark _)) fun _ => ?_
  split
  · exact .bind (reads_braced hr) fun _ => reads_mark _
  · refine .bind reads_tagName fun _ => .bind (reads_mark? _) fun _ => ?_
    split
    · refine .bind (reads_of_looks (looks_atMark _)) fun _ => ?_
      split
      · exact .bind (reads_braced hr) fun _ => reads_mark _
      · refine .bind (reads_of_looks (looks_ahead _)) fun _ => ?_
        split
        · exact reads_whole hr
        · exact reads_quoted
    · exact .pure .refl

theorem reads_childrenAndClosing : Reads [lost] (childrenAndClosing rules) fun _ => [lost] := by
  refine .bind (reads_charAndText (by decide)) fun _ => reads_repeatFrom (fun _ => [lost]) .refl fun _ => ?_
  refine .bind (reads_of_looks (looks_ahead _)) fun _ => ?_
  split
  · refine .bind (reads_braced hr) fun _ => .bind (reads_charAndText (by decide)) fun _ => .pure .refl
  refine .bind (reads_of_looks looks_foresees) fun _ => ?_
  split
  · refine .bind (reads_char (by decide)) fun _ => .bind (reads_char (by decide)) fun _ => ?_
    refine .bind (reads_of_looks (looks_ahead _)) fun _ => ?_
    have hrest : Reads [lost] (do
        require (← ahead ">")
        return ((), false)) fun _ => [lost] :=
      .bind (reads_of_looks (looks_ahead _)) fun _ =>
        .bind (reads_of_looks (looks_require _)) fun _ => .pure .refl
    split
    · exact .bind reads_tagName fun _ => hrest
    · exact hrest
  · exact .bind hr.markup.lose fun _ => .bind (reads_charAndText (by decide)) fun _ => .pure .refl

end Markup

theorem reads_markup : Reads [] (markup rules) fun _ => [lost] := by
  refine .of_gives .lost (.bind (Markup.reads_char (by decide)) fun _ => ?_)
  refine .bind (reads_of_looks (Markup.looks_ahead _)) fun _ => ?_
  have hrest : Reads [lost] (do
      if ← Markup.ahead "/" then
        Markup.char '/'
        require (← Markup.ahead ">")
        return "jsx_self_closing_element"
      else
        Markup.childrenAndClosing rules
        return "jsx_element") fun _ => [lost] := by
    refine .bind (reads_of_looks (Markup.looks_ahead _)) fun _ => ?_
    split
    · refine .bind (Markup.reads_char (by decide)) fun _ => .bind (reads_of_looks (Markup.looks_ahead _)) fun _ => ?_
      exact .bind (reads_of_looks (looks_require _)) fun _ => .pure .refl
    · exact .bind (Markup.reads_childrenAndClosing hr) fun _ => .pure .refl
  split
  · refine .bind Markup.reads_tagName fun _ => .bind ?_ fun _ => hrest
    refine reads_repeatFrom (fun _ => [lost]) .refl fun _ => ?_
    refine .bind (reads_of_looks (Markup.looks_ahead _)) fun _ => ?_
    refine .bind (reads_of_looks (Markup.looks_ahead _)) fun _ => ?_
    split
    · exact .pure .refl
    · exact .bind (Markup.reads_tagAttribute hr) fun _ => .pure .refl
  · exact hrest

/-! ## Calls, accesses and objects -/

/-- The content of an operand. -/
def Operand.content (o : Operand) : List Content := phrase o.reading

theorem reads_argument : Reads [] (argument rules) phrase := by
  refine .bind (reads_mark? _) fun _ => ?_
  split
  · refine .bind (hr.expression _) fun e => .pure ?_
    exact .map .spread (fun _ => .parts rfl rfl rfl) e
  · exact hr.expression _

theorem reads_arguments : Reads [] (arguments rules) phrases := by
  refine .bind (reads_mark _) fun _ => .bind (reads_elements _ (reads_argument hr)) fun found => .pure ?_
  rw [flatMap_ifPresent]
  exact .mapM (fun _ => .refl) _

theorem reads_index : Reads [] (index rules) phrase :=
  .bind (reads_mark _) fun _ => .bind (hr.expressions _) fun _ => .bind (reads_mark _) fun _ => .pure .refl

omit hr in
/-- A dot access is made of what it accesses. -/
theorem gives_access (optional : Bool) (r : Reading Expr) (text : String) :
    Gives (phrase r) (phrase do return .access false optional (← r) (propertyLiteral text)) := by
  cases r with
  | error => exact .lost
  | ok e =>
    have hname : Gives [] [tree (propertyLiteral text)] := .parts rfl rfl rfl
    exact (Gives.cons hname).trans (.parts rfl rfl rfl)

omit hr in
/-- What is made of a phrase and a list phrase. -/
theorem gives_listed {c d e : Category} (k : Tree c → Tree (.list d) → Tree e)
    (hk : ∀ t us, Gives [tree t, tree us] [tree (k t us)])
    (hform : ∀ (h : Tree d) (t : Tree (.list d)), (Tree.cons h t).Formed)
    (r : Reading (Tree c)) (rs : Reading (List (Tree d))) :
    Gives (phrase r ++ phrases rs) (phrase do return k (← r) (.ofList (← rs))) := by
  cases r with
  | error => exact .lost
  | ok t =>
    cases rs with
    | error => exact .lost
    | ok us => exact (Gives.append .refl (.ofList us hform)).trans (hk t _)

theorem reads_postfixStep (ctx : Context) (calls : Bool) (o : Operand) :
    Reads o.content (postfixStep rules ctx calls o) fun r => r.1.content := by
  refine .bind (reads_of_looks looks_peek) fun token => ?_
  split
  · refine .bind reads_advance fun _ => .bind (reads_accept _) fun text => .pure ?_
    exact gives_access false o.reading text
  · refine .bind reads_advance fun _ => .bind (reads_of_looks looks_peek) fun token => ?_
    split
    · refine .bind ((reads_arguments hr).frame _) fun args => .pure ?_
      exact gives_listed (.call true) (fun _ _ => .parts rfl rfl rfl) (fun _ _ => rfl) o.reading args
    · refine .bind ((reads_index hr).frame _) fun i => .pure ?_
      exact .bind₂ (.access true true) (fun _ _ => .parts rfl rfl rfl) o.reading i
    · refine .bind (reads_accept _) fun text => .pure ?_
      exact gives_access true o.reading text
  · refine .bind ((reads_index hr).frame _) fun i => .pure ?_
    exact .bind₂ (.access true false) (fun _ _ => .parts rfl rfl rfl) o.reading i
  · split
    · refine .bind ((reads_arguments hr).frame _) fun args => .pure ?_
      exact gives_listed (.call false) (fun _ _ => .parts rfl rfl rfl) (fun _ _ => rfl) o.reading args
    · exact .pure .refl
  · split
    · refine .bind ((reads_template hr).frame _) fun r => .pure ?_
      exact gives_listed (.tagged r.1) (fun _ _ => .parts rfl rfl rfl) (fun _ _ => rfl) o.reading r.2
    · exact .pure .refl
  · split
    next op hop =>
      refine .bind (reads_of_looks (looks_atSemicolon _)) fun _ => ?_
      split
      · exact .pure .refl
      · refine .bind reads_advance fun _ => .pure ?_
        exact .map (.update op false) (fun _ => .parts rfl rfl rfl) o.reading
    · exact .pure .refl
  · exact .pure .refl

theorem reads_chain (ctx : Context) (calls : Bool) (o : Operand) :
    Reads o.content (chain rules ctx calls o) Operand.content :=
  reads_repeatFrom Operand.content .refl fun o => reads_postfixStep hr ctx calls o

theorem reads_arrayLiteral : Reads [] (arrayLiteral rules) phrase := by
  refine .bind (reads_mark _) fun _ => .bind (reads_elements _ (reads_argument hr)) fun found => .pure ?_
  exact .elements .array (fun _ => .parts rfl rfl rfl) found

theorem reads_property : Reads [] (property rules) fun r => phrase r.1 := by
  refine .orElse ?_ (.orElse ?_ (.orElse ?_ ?_))
  · refine .bind (reads_mark _) fun _ => .bind (hr.expression _) fun e => .pure ?_
    exact .map .spreadProp (fun _ => .parts rfl rfl rfl) e
  · refine .bind (reads_propertyKey hr) fun key => .bind (reads_mark _) fun _ => ?_
    refine .bind ((hr.expression _).frame _) fun value => .pure ?_
    exact .map₂ .keyed (fun _ _ => .parts rfl rfl rfl) key value
  · refine .bind (reads_method hr _) fun m => .pure ?_
    obtain ⟨kind, isStatic, key, fn⟩ := m
    cases key with
    | error => exact .lost
    | ok key =>
      cases fn with
      | error => exact .lost
      | ok fn => exact .method rfl rfl id
  · exact .bind reads_identifier fun _ => .pure (.parts rfl rfl rfl)

theorem reads_objectMembers :
    Reads [] (objectMembers rules) fun found => found.flatMap (ifPresent fun r => phrase r.1) :=
  .bind (reads_mark _) fun _ => reads_elements _ (reads_property hr)

theorem reads_objectLiteral : Reads [] (objectLiteral rules) phrase := by
  refine .bind (reads_objectMembers hr) fun found => .pure ?_
  rw [flatMap_ifPresent]
  exact (Gives.ofAll Prod.fst _).trans (.listed .object (fun _ => .parts rfl rfl rfl) (fun _ _ => rfl) _)

omit hr in
theorem looks_startsObject : Looks (startsObject rules) := looks_foresees

/-! ## Functions and primary phrases -/

omit hr in
theorem gives_arrow (isAsync : Bool) (params : Reading (List (Tree .binder)))
    (body : Reading (Tree .arrowBody)) :
    Gives (phrases params ++ phrase body) (phrase do return .arrow isAsync (.ofList (← params)) (← body)) := by
  cases params with
  | error => exact .lost
  | ok params =>
    cases body with
    | error => exact .lost
    | ok body => exact (Gives.append (.ofList params fun _ _ => rfl) .refl).trans (.parts rfl rfl rfl)

theorem reads_arrowRest (ctx : Context) (isAsync : Bool) (params : Reading (List (Tree .binder))) :
    Reads (phrases params) (arrowRest rules ctx isAsync params) Operand.content := by
  refine .bind (reads_mark _) fun _ => .orElse ?_ ?_
  · refine .bind (reads_of_looks (looks_atMark _)) fun _ => ?_
    have hrest : Reads (phrases params) (do
        let finish (body : Reading (Tree .arrowBody)) : Operand :=
          { reading := do return .arrow isAsync (.ofList (← params)) (← body) }
        return finish (.exprBody <$> (← rules (.expression ctx)))) Operand.content := by
      refine .bind ((hr.expression _).frame _) fun e => .pure ?_
      exact .trans (.append .refl (.map .exprBody (fun _ => .parts rfl rfl rfl) e))
        (gives_arrow isAsync params _)
    split
    · refine .bind (reads_of_looks looks_startsObject) fun _ => ?_
      exact .bind (reads_of_looks (looks_require _)) fun _ => hrest
    · exact hrest
  · refine .bind (hr.block.frame _) fun inner => .pure ?_
    exact .trans (.append .refl (.map .blockBody (fun _ => .parts rfl rfl rfl) inner))
      (gives_arrow isAsync params _)

omit hr in
theorem reads_loneParameter : Reads [] loneParameter phrases := by
  refine .bind reads_identifier fun ident => .bind (reads_of_looks (looks_atMark _)) fun _ => ?_
  exact .bind (reads_of_looks (looks_require _)) fun _ => .pure (.parts rfl rfl rfl)

omit hr in
theorem reads_nameOperand : Reads [] nameOperand Operand.content :=
  .bind reads_name fun _ => .pure (Gives.ident.trans (.parts rfl rfl rfl))

theorem reads_nameOrArrow (ctx : Context) : Reads [] (nameOrArrow rules ctx) Operand.content :=
  .orElse (.bind reads_loneParameter fun _ => reads_arrowRest hr ctx false _) reads_nameOperand

theorem reads_asyncOperand (ctx : Context) : Reads [] (asyncOperand rules ctx) Operand.content := by
  refine .orElse ?_ (.orElse ?_ (reads_nameOrArrow hr ctx))
  · refine .bind (reads_of_looks looks_foresees) fun _ => ?_
    refine .bind (reads_of_looks (looks_require _)) fun _ => ?_
    refine .bind (reads_keywordFunction hr _) fun fn => .pure ?_
    exact .map .functionExpr (fun _ => .parts rfl rfl rfl) fn
  · refine .via (fun _ => []) ?_ fun _ => ?_
    · refine .bind (reads_word _) fun _ => .bind (reads_of_looks (looks_atSemicolon _)) fun _ => ?_
      exact reads_of_looks (looks_require _)
    · exact .bind (.orElse reads_loneParameter (reads_parameters hr)) fun _ => reads_arrowRest hr ctx true _

theorem reads_parenthesized (ctx : Context) : Reads [] (parenthesized rules ctx) Operand.content := by
  refine .orElse ?_ (.bind (reads_parameters hr) fun _ => reads_arrowRest hr ctx false _)
  refine .bind (reads_mark _) fun _ => .bind (hr.expressions _) fun e => .bind (reads_mark _) fun _ => ?_
  refine .bind (reads_of_looks (looks_atMark _)) fun _ => ?_
  exact .bind (reads_of_looks (looks_require _)) fun _ => .pure .refl

theorem reads_literalOrDestructuring (ctx : Context) {literal : Parser (Reading Expr)}
    (hliteral : Reads [] literal phrase) :
    Reads [] (literalOrDestructuring rules ctx literal) Operand.content := by
  refine .orElse ?_ ?_
  · refine .bind hliteral fun e => .bind (reads_of_looks (looks_atMark _)) fun _ => ?_
    exact .bind (reads_of_looks (looks_require _)) fun _ => .pure .refl
  · refine .bind (reads_destructuring hr true) fun target => .bind (reads_mark _) fun _ => ?_
    refine .bind ((hr.expression _).frame _) fun value => .pure ?_
    exact .map₂ (.assign .assign) (fun _ _ => .parts rfl rfl rfl) target.asExpr value

theorem reads_classOperand : Reads [] (classOperand rules) Operand.content := by
  refine .bind (reads_decorators hr) fun _ => .bind (reads_word _) fun _ => ?_
  refine .bind hr.classRest fun definition => .pure ?_
  exact .map .classExpr (fun _ => .parts rfl rfl rfl) definition

omit hr in
theorem reads_importOperand : Reads [] importOperand Operand.content := by
  refine .orElse ?_ ?_
  · refine .bind (reads_unsupported [] _ _ ?_) fun _ => .pure .refl
    exact .bind (reads_word _) fun _ => .bind (reads_mark _) fun _ => reads_word _
  · refine .get fun source s => .bind (readsFrom_word _) fun _ => ?_
    refine .bind (reads_of_looks (looks_atMark _)) fun _ => ?_
    refine .bind (reads_of_looks (looks_atMark _)) fun _ => ?_
    refine .bind (reads_of_looks (looks_require _)) fun _ => .pure ?_
    exact Gives.ident.trans (.parts rfl rfl rfl)

theorem reads_markupOperand : Reads [] (markupOperand rules) Operand.content := by
  refine .get fun source s => Reads.from (.bind hr.markup fun form => .bind (Markup.reads_char (by decide)) fun _ => ?_)
  exact .bind (reads_of_looks (looks_snippetFrom _ _)) fun _ => .pure .lost

omit hr in
/-- A literal or a word for one phrase. -/
theorem reads_plain {e : Expr} (h : Gives [] [tree e]) : Reads [] (do
    advance
    return ({ reading := .ok e } : Operand)) Operand.content :=
  .bind reads_advance fun _ => .pure h

theorem reads_primary (ctx : Context) {new : Parser Operand} (hnew : Reads [] new Operand.content) :
    Reads [] (primary rules ctx new) Operand.content := by
  refine .bind (reads_of_looks looks_peek) fun token => ?_
  split
  · exact reads_plain (.parts rfl rfl rfl)
  · exact reads_plain (.parts rfl rfl rfl)
  · exact reads_plain (.parts rfl rfl rfl)
  · exact reads_plain (.parts rfl rfl rfl)
  · exact reads_plain (.parts rfl rfl rfl)
  · refine .bind (reads_keywordFunction hr _) fun fn => .pure ?_
    exact .map .functionExpr (fun _ => .parts rfl rfl rfl) fn
  · exact reads_classOperand hr
  · exact reads_asyncOperand hr ctx
  · exact hnew
  · exact reads_importOperand
  · exact reads_nameOrArrow hr ctx
  · split
    · exact reads_plain (.parts rfl rfl rfl)
    · exact reads_plain (.parts rfl rfl rfl)
    · exact reads_failure
  · exact reads_plain (.parts rfl rfl rfl)
  · refine .bind reads_advance fun _ => .bind (reads_of_looks (looks_atWord _)) fun _ => ?_
    exact .bind (reads_of_looks (looks_require _)) fun _ => .pure .lost
  · exact reads_parenthesized hr ctx
  · exact reads_literalOrDestructuring hr ctx (reads_arrayLiteral hr)
  · exact reads_literalOrDestructuring hr ctx (reads_objectLiteral hr)
  · refine .bind (reads_template hr) fun r => .pure ?_
    exact .listed (.template r.1) (fun _ => .parts rfl rfl rfl) (fun _ _ => rfl) r.2
  · exact .bind reads_regex fun _ => .pure .refl
  · exact .bind reads_regex fun _ => .pure .refl
  · exact reads_markupOperand hr
  · exact reads_classOperand hr
  · exact reads_failure

/-- What `new` constructs, from its arguments on. -/
theorem reads_newArguments (callee : Operand) : Reads callee.content (do
    let args ← if ← atMark "(" then arguments rules else pure (.ok [])
    return ({ reading := do
      let args ← args
      return .new (← callee.reading) (.ofList args) } : Operand)) Operand.content := by
  have hnew : ∀ args : Reading (List Expr), Reads (callee.content ++ phrases args) (pure ({ reading := do
      let args ← args
      return .new (← callee.reading) (.ofList args) } : Operand)) Operand.content := by
    intro args
    obtain ⟨callee, form, takesTemplate⟩ := callee
    refine .pure ?_
    cases args with
    | error => exact .lost
    | ok args =>
      cases callee with
      | error => exact .lost
      | ok callee =>
        exact (Gives.cons (.ofList args fun _ _ => rfl)).trans
          (.parts rfl rfl rfl)
  have hnone : Gives callee.content (callee.content ++ phrases (.ok ([] : List Expr))) :=
    .of_perm (by simp [phrases, reading])
  refine .bind (reads_of_looks (looks_atMark _)) fun _ => ?_
  split
  · exact .bind ((reads_arguments hr).frame _) hnew
  · exact .bind (.pure hnone) hnew

theorem reads_newOperand (ctx : Context) (depth : Nat) :
    Reads [] (newOperand rules ctx depth) Operand.content := by
  induction depth with
  | zero => exact reads_failure
  | succ depth ih =>
    refine .orElse ?_ ?_
    · refine .bind (reads_unsupported [] _ _ ?_) fun _ => .pure .refl
      exact .bind (reads_word _) fun _ => .bind (reads_mark _) fun _ => reads_word _
    · refine .bind (reads_word _) fun _ => .bind (reads_of_looks (looks_atWord _)) fun _ => ?_
      refine .bind (reads_of_looks looks_foresees) fun _ => ?_
      split
      · exact .bind ih fun callee => reads_newArguments hr callee
      · refine .bind (reads_primary hr ctx ih) fun o => .bind (reads_chain hr ctx false o) fun callee => ?_
        exact reads_newArguments hr callee

theorem reads_wholeOperand (ctx : Context) : Reads [] (wholeOperand rules ctx) Operand.content :=
  .get fun _ _ => Reads.from (.bind (reads_primary hr ctx (reads_newOperand hr ctx _)) fun o =>
    reads_chain hr ctx true o)

/-! ## Operands and operations -/

theorem reads_operandOrAssignment (ctx : Context) : Reads [] (operandOrAssignment rules ctx) phrase := by
  refine .bind (reads_wholeOperand hr ctx) fun o => .bind (reads_of_looks looks_peek) fun token => ?_
  split
  · split
    next op hop =>
      split
      · refine .bind reads_advance fun _ => .bind ((hr.expression _).frame _) fun value => .pure ?_
        exact .map₂ (.assign op) (fun _ _ => .parts rfl rfl rfl) o.reading value
      · exact .pure .refl
    next => exact .pure .refl
  · exact .pure .refl

theorem reads_yielded (ctx : Context) : Reads [] (yielded rules ctx) phrase := by
  have hsome : ∀ delegate : Bool, Reads [] (do
      let e ← rules (.expression ctx)
      return (do return .yield delegate (.some (← e)) : Reading Expr)) phrase := by
    intro delegate
    refine .bind (hr.expression _) fun e => .pure ?_
    cases e with
    | error => exact .lost
    | ok e => exact (Gives.ofOption (some e)).trans (.parts rfl rfl rfl)
  refine .bind (reads_word _) fun _ => .bind (reads_mark? _) fun _ => ?_
  split
  · exact hsome true
  · refine .bind (reads_of_looks (looks_atSemicolon _)) fun _ => ?_
    refine .bind (reads_of_looks looks_peek) fun _ => ?_
    split
    · exact .pure ((Gives.ofOption none).trans (.parts rfl rfl rfl))
    · exact hsome false

theorem reads_awaited (ctx : Context) : Reads [] (awaited rules ctx) phrase := by
  refine .orElse ?_ (reads_operandOrAssignment hr ctx)
  refine .bind (reads_word _) fun _ => .bind (reads_of_looks (looks_atSemicolon _)) fun _ => ?_
  refine .bind (reads_of_looks (looks_require _)) fun _ => .bind (reads_of_looks looks_peek) fun _ => ?_
  refine .bind (reads_of_looks (looks_require _)) fun _ => .bind (hr.operand _) fun e => .pure ?_
  exact .map .await (fun _ => .parts rfl rfl rfl) e

theorem reads_operand (ctx : Context) : Reads [] (operand rules ctx) phrase := by
  have happlied : ∀ op : UnaryOp, Reads [] (do
      advance
      return .unary op <$> (← rules (.operand ctx))) phrase := by
    intro op
    refine .bind reads_advance fun _ => .bind (hr.operand _) fun e => .pure ?_
    exact .map (.unary op) (fun _ => .parts rfl rfl rfl) e
  have hupdated : ∀ op : UpdateOp, Reads [] (do
      advance
      return .update op true <$> (← rules (.operand ctx))) phrase := by
    intro op
    refine .bind reads_advance fun _ => .bind (hr.operand _) fun e => .pure ?_
    exact .map (.update op true) (fun _ => .parts rfl rfl rfl) e
  refine .bind (reads_of_looks looks_peek) fun token => ?_
  split
  · exact reads_yielded hr ctx
  · exact reads_awaited hr ctx
  · split
    · exact happlied _
    · exact reads_operandOrAssignment hr ctx
  · split
    · exact happlied _
    · exact hupdated _
    · exact reads_operandOrAssignment hr ctx
  · exact reads_operandOrAssignment hr ctx

omit hr in
theorem gives_conditional (test consequent alternate : Reading Expr) :
    Gives (phrase test ++ phrase consequent ++ phrase alternate)
      (phrase (.conditional <$> test <*> consequent <*> alternate)) := by
  cases test with
  | error => exact .lost
  | ok test =>
    cases consequent with
    | error => exact .lost
    | ok consequent =>
      cases alternate with
      | error => exact .lost
      | ok alternate => exact .parts rfl rfl rfl

theorem reads_operation (ctx : Context) (least : Nat) : Reads [] (operation rules ctx least) phrase := by
  refine .bind (hr.operand _) fun first => reads_repeatFrom phrase .refl fun left => ?_
  refine .bind (reads_of_looks looks_peek) fun token => ?_
  split
  next op hop =>
    split
    · exact .pure .refl
    · refine .bind reads_advance fun _ => .bind ((hr.operation _ _).frame _) fun right => .pure ?_
      exact .map₂ (.binary op) (fun _ _ => .parts rfl rfl rfl) left right
  next =>
    split
    · refine .bind reads_advance fun _ => .bind ((hr.expression _).frame _) fun consequent => ?_
      refine .bind (reads_mark _) fun _ => .bind ((hr.operation _ _).frame _) fun alternate => .pure ?_
      exact gives_conditional left consequent alternate
    · exact .pure .refl

theorem reads_expression (ctx : Context) : Reads [] (expression rules ctx) phrase := hr.operation ctx 0

theorem reads_expressions (ctx : Context) : Reads [] (expressions rules ctx) phrase := by
  refine .bind (hr.expression _) fun first => ?_
  refine .bind (reads_repeatFrom (fun more => phrase first ++ more.flatMap phrase) ?_ fun more => ?_)
    fun more => ?_
  · exact .of_perm (by simp)
  · refine .bind (reads_mark? _) fun _ => ?_
    split
    · refine .bind ((hr.expression _).frame _) fun e => .pure ?_
      rw [List.append_assoc]
      exact .append .refl (.of_perm List.perm_append_comm)
    · exact .pure .refl
  · split
    next hempty => exact .pure (.of_perm (by simp [List.isEmpty_iff.mp hempty]))
    · have h := Gives.ofReverse (more ++ [first])
      simp only [List.flatMap_append, List.flatMap_singleton, List.reverse_append, List.reverse_singleton,
        List.singleton_append] at h
      refine .pure ((Gives.of_perm List.perm_append_comm).trans (h.trans ?_))
      exact .listed .comma (fun _ => .parts rfl rfl rfl) (fun _ _ => rfl) _

/-! ## Targets -/

omit hr in
theorem gives_target {o : Operand} {snippet : String} {t : Target} (h : o.target snippet = some t)
    (asExpr : Bool) : Gives o.content (t.content asExpr) := by
  obtain ⟨read, form, takesTemplate⟩ := o
  cases form with
  | name | undefined =>
    obtain rfl := (Option.some.inj h).symm
    cases asExpr with
    | true => exact .refl
    | false =>
      cases read with
      | error => exact .lost
      | ok e =>
        -- only a name can be bound, and the binder holds the identifier that the expression holds
        cases e with
        | identExpr ident => exact .one rfl rfl id fun h => Tree.everywhere_iff.mpr ⟨rfl, (Tree.everywhere_iff.mp h).2⟩
        | _ => exact .lost
  | access computed =>
    obtain rfl := (Option.some.inj h).symm
    cases asExpr with
    | true => exact .refl
    | false => exact .lost
  | parenthesized => cases h
  | other => cases h

theorem reads_plainTarget (asExpr : Bool) : Reads [] (plainTarget rules) (Target.content asExpr) := by
  refine .get fun source s => Reads.from ?_
  refine .via Operand.content ?_ fun o => .bind (reads_chain hr _ true o) fun o => ?_
  · refine .bind (reads_of_looks looks_peek) fun token => ?_
    split
    any_goals exact reads_primary hr _ reads_failure
    exact reads_nameOperand
  refine .bind (reads_of_looks (looks_snippetFrom _ _)) fun snippet => ?_
  split
  next t ht => exact .pure (gives_target ht asExpr)
  next => exact reads_failure

theorem reads_simpleTarget (asExpr : Bool) : Reads [] (simpleTarget rules) (Target.content asExpr) := by
  refine .orElse ?_ (reads_plainTarget hr asExpr)
  refine .bind (reads_destructuring hr asExpr) fun t => .bind (reads_of_looks looks_peek) fun token => ?_
  exact .bind (reads_of_looks (looks_require _)) fun _ => .pure .refl

theorem reads_pattern (asExpr : Bool) : Reads [] (pattern rules) (Target.content asExpr) := by
  refine .bind (reads_mark? _) fun _ => ?_
  split
  · refine .bind (reads_simpleTarget hr asExpr) fun t => .pure ?_
    cases asExpr with
    | true => exact .map .spread (fun _ => .parts rfl rfl rfl) t.asExpr
    | false => exact .map .restBinder (fun _ => .parts rfl rfl rfl) t.asBinder
  · exact reads_simpleTarget hr asExpr

end Unminify.Grammar
