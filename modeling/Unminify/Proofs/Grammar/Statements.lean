import Unminify.Grammar.Script
import Unminify.Proofs.Grammar.Expressions

/-!
# What is read of statements
-/

namespace Unminify.Grammar

open Content Unminify.Grammar.Parser

/-- The content of the members of a statement list. -/
def membersContent (members : Members) : List Content := members.flatMap (reading fun s => [member s])

theorem gives_member (r : Reading Stmt) :
    Gives (reading (fun s => [proper s]) r) (reading (fun s => [member s]) r) := by
  cases r with
  | error => exact .lost
  | ok s => exact .one rfl rfl id fun h => ⟨h.1, .inl h.2⟩

/-- Comments are put on top of the members of a list. -/
theorem gives_pushComments (comments : List String) (members : Members) :
    Gives (membersContent members ++ [remarks comments]) (membersContent (pushComments comments members)) := by
  have hcomments : membersContent (comments.map fun text => .ok (.comment text)) =
      comments.map fun text => member (.comment text) := by
    rw [membersContent, List.flatMap_map]
    exact List.map_eq_flatMap.symm
  have hpush : membersContent (pushComments comments members) =
      membersContent (comments.map fun text => .ok (.comment text)).reverse ++ membersContent members :=
    List.flatMap_append
  refine .trans (.append .refl (.comments comments)) (.of_perm ?_)
  rw [hpush, ← hcomments]
  exact List.perm_append_comm.trans (((List.reverse_perm _).symm.flatMap_right _).append_right _)

theorem gives_blockOfMembers (members : Members) :
    Gives (membersContent members) (phrase (blockOfMembers members)) := by
  have h : Gives (membersContent members.reverse)
      (reading (fun ss => ss.flatMap fun s => [member s]) (readAll members.reverse)) :=
    .mapM (fun _ => .refl) members.reverse
  refine .trans (.of_perm (members.reverse_perm.symm.flatMap_right _)) (h.trans ?_)
  rw [blockOfMembers]
  cases readAll members.reverse with
  | error => exact .lost
  | ok ss => exact .blockOf ss

/-- A body is made of a statement that is no comment and no sequence. -/
theorem gives_body (r : Reading Stmt) : Gives (reading (fun s => [proper s]) r) (phrase (.body <$> r)) := by
  cases r with
  | error => exact .lost
  | ok s =>
    refine .build rfl rfl rfl (by simp [reading, proper, tree]) fun hsound => ?_
    obtain ⟨hs, hproper⟩ : s.Sourced ∧ s.isProper = true := hsound _ List.mem_cons_self
    refine ⟨.inl hproper, fun p hp => ?_⟩
    obtain rfl := List.mem_singleton.mp hp
    exact hs

/-- A body with comments around it is a sequence of the comments and the statement. -/
theorem gives_commentedBody (texts : List String) (r : Reading Stmt) :
    Gives (reading (fun s => [proper s]) r ++ [remarks texts])
      (phrase do
        let s ← r
        return .body (.sequence (.blockOf (texts.map .comment ++ [s])))) := by
  cases r with
  | error => exact .lost
  | ok s =>
    have hcomments : ((texts.map Tree.comment).flatMap fun s => [member s]) =
        texts.map fun text => member (.comment text) := by
      rw [List.flatMap_map]
      exact List.map_eq_flatMap.symm
    have hmembers : Gives ([proper s] ++ [remarks texts])
        ((texts.map Tree.comment ++ [s]).flatMap fun s => [member s]) := by
      rw [List.flatMap_append, hcomments]
      exact (Gives.append (gives_member (.ok s)) (.comments texts)).trans (.of_perm List.perm_append_comm)
    have hsequence : Gives ([proper s] ++ [remarks texts])
        [tree (.sequence (.blockOf (texts.map .comment ++ [s])))] :=
      (hmembers.trans (.blockOf _)).trans (.parts rfl rfl rfl)
    refine .trans (hsequence.also fun hsound => (hsound _ List.mem_cons_self).2) ?_
    refine .build rfl rfl rfl (by simp [tree]) fun hsound => ?_
    obtain ⟨hs, hproper⟩ := hsound _ List.mem_cons_self
    refine ⟨.inr ⟨texts, s, rfl, hproper⟩, fun p hp => ?_⟩
    obtain rfl := List.mem_singleton.mp hp
    exact hs

variable {rules : Rules} (hr : rules.Sound)

include hr

/-! ## Lists and bodies -/

theorem reads_pushStatement (cs : List Content) (members : Members) :
    Reads (cs ++ membersContent members) (pushStatement rules members) fun r => cs ++ membersContent r.1 := by
  refine .bind (hr.statement.collectLoose.frame _) fun r => .pure ?_
  obtain ⟨s, loose⟩ := r
  rw [List.append_assoc]
  refine .append .refl (.trans (.of_perm ?_) (.append (gives_member s.reading) (gives_pushComments loose members)))
  exact List.perm_append_comm_assoc _ _ _

theorem reads_block : Reads [] (block rules) phrase := by
  refine .bind (reads_mark _) fun _ => ?_
  refine .bind (reads_repeatFrom membersContent .refl fun members => ?_) fun members =>
    .pure (gives_blockOfMembers members)
  refine .bind reads_takeLead fun lead => ?_
  refine .of_gives (gives_pushComments lead members) (.bind (reads_mark? _) fun _ => ?_)
  split
  · exact .pure .refl
  · exact .bind (reads_pushStatement hr [] _) fun _ => .pure .refl

theorem reads_body : Reads [] (body rules) phrase := by
  refine .bind reads_takeLead fun lead => .bind (hr.statement.collectLoose.frame _) fun r => ?_
  obtain ⟨s, loose⟩ := r
  have hremarks : Gives ([remarks lead] ++ (s.content ++ [remarks loose])) (s.content ++ [remarks (lead ++ loose)]) :=
    (Gives.of_perm (List.perm_append_comm_assoc _ _ _)).trans (.append .refl (.remarks_append lead loose))
  refine .of_gives hremarks ?_
  dsimp only
  split
  · exact .bind (reads_loosen _) fun _ => .pure (gives_body s.reading)
  · split
    next hempty =>
      rw [List.isEmpty_iff.mp hempty]
      refine .pure (.trans (.append .refl .remarks_nil) ?_)
      rw [List.append_nil]
      exact gives_body s.reading
    · exact .pure (gives_commentedBody _ s.reading)

theorem reads_condition : Reads [] (condition rules) phrase :=
  .bind (reads_mark _) fun _ => .bind (hr.expressions _) fun _ => .bind (reads_mark _) fun _ => .pure .refl

/-! ## Declarations -/

theorem reads_declarator : Reads [] (declarator rules) fun r => phrase r.1 := by
  refine .bind (reads_declaredTarget hr false) fun target => .bind (reads_mark? _) fun _ => ?_
  obtain ⟨target, asExpr⟩ := target
  split
  · refine .bind ((hr.expression _).frame _) fun value => .pure ?_
    cases value with
    | error => exact .lost
    | ok value =>
      cases target with
      | error => exact .lost
      | ok target =>
        exact (Gives.cons (.ofOption (some value))).trans (.parts rfl rfl rfl)
  · refine .pure ?_
    cases target with
    | error => exact .lost
    | ok target =>
      exact (Gives.cons (.ofOption none)).trans (.parts rfl rfl rfl)

theorem reads_declarators : Reads [] (declarators rules) fun r => phrases r.1 := by
  refine .bind (reads_declarator hr) fun r => ?_
  obtain ⟨first, initialized⟩ := r
  refine .bind (reads_repeatFrom (fun r => r.1.flatMap phrase) (.of_perm (by simp)) fun r => ?_)
    fun r => .pure (.ofReverse r.1)
  refine .bind (reads_mark? _) fun _ => ?_
  split
  · exact .bind ((reads_declarator hr).frame _) fun d => .pure (.of_perm List.perm_append_comm)
  · exact .pure .refl

omit hr in
theorem reads_declarationKeyword (mayEnd : Bool) : Reads [] (declarationKeyword mayEnd) fun _ => [] := by
  refine .bind (reads_of_looks looks_peek) fun token => ?_
  split
  · exact .bind reads_advance fun _ => .pure .refl
  · exact .bind reads_advance fun _ => .pure .refl
  · refine .bind reads_advance fun _ => ?_
    split
    case' isTrue =>
      refine .bind (reads_of_looks (looks_atSemicolon _)) fun _ => ?_
      refine .bind (reads_of_looks (looks_require _)) fun _ => ?_
    all_goals
      refine .bind (reads_of_looks looks_peek) fun token => ?_
      split
      · exact .bind (reads_of_looks (looks_require _)) fun _ => .pure .refl
      · exact .bind (reads_of_looks (looks_require _)) fun _ => .pure .refl
      · exact .bind reads_failure fun _ => .pure .refl
  · exact reads_failure

theorem reads_declaration (mayEnd : Bool) : Reads [] (declaration rules mayEnd) phrase := by
  refine .bind (reads_declarationKeyword mayEnd) fun kind => .bind (reads_declarators hr) fun r => ?_
  obtain ⟨found, initialized⟩ := r
  refine .bind ((reads_semicolon _).discard) fun _ => .pure ?_
  exact .listed (.varDecl kind) (fun _ => .parts rfl rfl rfl) (fun _ _ => rfl) found

/-- The content of a statement that was read. -/
def stmtContent (r : Reading Stmt) : List Content := reading (fun s => [proper s]) r

omit hr in
/-- A statement is made of a phrase. -/
theorem gives_stmt {c : Category} (k : Tree c → Stmt) (hk : ∀ t, Gives [tree t] [tree (k t)])
    (hproper : ∀ t, (k t).isProper = true) (r : Reading (Tree c)) :
    Gives (phrase r) (stmtContent (k <$> r)) := by
  cases r with
  | error => exact .lost
  | ok t => exact (hk t).also fun _ => hproper t

omit hr in
theorem gives_stmt₂ {c d : Category} (k : Tree c → Tree d → Stmt)
    (hk : ∀ t u, Gives [tree t, tree u] [tree (k t u)]) (hproper : ∀ t u, (k t u).isProper = true)
    (r : Reading (Tree c)) (r' : Reading (Tree d)) :
    Gives (phrase r ++ phrase r') (stmtContent do return k (← r) (← r')) := by
  cases r with
  | error => exact .lost
  | ok t =>
    cases r' with
    | error => exact .lost
    | ok u => exact (hk t u).also fun _ => hproper t u

omit hr in
theorem gives_stmt₃ {c d e : Category} (k : Tree c → Tree d → Tree e → Stmt)
    (hk : ∀ t u v, Gives [tree t, tree u, tree v] [tree (k t u v)])
    (hproper : ∀ t u v, (k t u v).isProper = true)
    (r : Reading (Tree c)) (r' : Reading (Tree d)) (r'' : Reading (Tree e)) :
    Gives (phrase r ++ phrase r' ++ phrase r'') (stmtContent do return k (← r) (← r') (← r'')) := by
  cases r with
  | error => exact .lost
  | ok t =>
    cases r' with
    | error => exact .lost
    | ok u =>
      cases r'' with
      | error => exact .lost
      | ok v => exact (hk t u v).also fun _ => hproper t u v

theorem reads_resourceDeclaration : Reads [] (resourceDeclaration rules) stmtContent := by
  refine .bind (reads_unsupported [lost] _ _ ?_) fun _ => .pure .refl
  refine .bind (reads_word? _).discard fun _ => .bind (reads_word _) fun _ => ?_
  refine .bind (reads_of_looks (looks_atSemicolon _)) fun _ => .bind (reads_of_looks (looks_require _)) fun _ => ?_
  exact .bind ((reads_declarators hr).gives fun _ => .lost) fun _ => (reads_semicolon _).discard

omit hr in
theorem looks_atDeclaration : Looks atDeclaration := looks_foresees

theorem reads_namedDeclaration : Reads [] (namedDeclaration rules) stmtContent := by
  refine .bind (reads_decorators hr) fun _ => .bind (reads_of_looks looks_atDeclaration) fun _ => ?_
  refine .bind (reads_of_looks (looks_require _)) fun _ => .bind (reads_word? _) fun _ => ?_
  split
  · refine .bind hr.classRest fun definition => .pure ?_
    exact gives_stmt .classStmt (fun _ => .parts rfl rfl rfl) (fun _ => rfl) definition
  · refine .bind (reads_keywordFunction hr _) fun fn => .pure ?_
    exact gives_stmt .functionStmt (fun _ => .parts rfl rfl rfl) (fun _ => rfl) fn

/-! ## Loops -/

theorem reads_iterationHead : Reads [] (iterationHead rules) phrase := by
  have hdeclared : ∀ kind : Reading VarKind, Reads [] (do
      let target ← declaredTarget rules
      return (do
        let kind ← kind
        let target ← target.asBinder
        return .declHead (.varDecl kind (.ofList [.declarator target .none])) : Reading (Tree .forHead)))
      phrase := by
    intro kind
    refine .bind (reads_declaredTarget hr false) fun target => .pure ?_
    obtain ⟨target, asExpr⟩ := target
    cases kind with
    | error => exact .lost
    | ok kind =>
      cases target with
      | error => exact .lost
      | ok target =>
        have hdeclarator : Gives [tree target] [tree (.declarator target .none)] :=
          (Gives.cons (.ofOption none)).trans (.parts rfl rfl rfl)
        have hlist : Gives [tree target] [tree (.ofList [.declarator target .none])] :=
          hdeclarator.trans (.ofList [_] fun _ _ => rfl)
        have hdecl : Gives [tree target] [tree (.varDecl kind (.ofList [.declarator target .none]))] :=
          hlist.trans (.parts rfl rfl rfl)
        exact hdecl.trans (.parts rfl rfl rfl)
  have hended : ∀ {head : Parser (Reading (Tree .forHead))}, Reads [] head phrase → Reads [] (do
      let h ← head
      require ((← atWord "in") || (← atWord "of"))
      return h) phrase := by
    intro head h
    refine .bind h fun _ => .bind (reads_of_looks (looks_atWord _)) fun _ => ?_
    refine .bind (reads_of_looks (looks_atWord _)) fun _ => ?_
    exact .bind (reads_of_looks (looks_require _)) fun _ => .pure .refl
  refine .orElse (hended ?_) (.orElse (hended ?_) (.orElse (hended ?_) (.orElse (hended ?_)
    (.orElse (hended ?_) (hended ?_)))))
  · refine .bind (reads_word _) fun _ => .bind (hdeclared _) fun head => .bind (reads_mark? _) fun _ => ?_
    split
    · exact .bind ((reads_leftOut (hr.expression _)).skip _) fun _ => .pure .refl
    · exact .pure .refl
  · exact .bind (reads_word _) fun _ => hdeclared _
  · exact .bind (reads_word _) fun _ => hdeclared _
  · exact .bind (reads_word _) fun _ => hdeclared _
  · refine .bind (reads_simpleTarget hr true) fun target => .pure ?_
    exact .map .exprHead (fun _ => .parts rfl rfl rfl) target.asExpr
  · refine .bind (reads_condition hr) fun e => .pure ?_
    exact .map .exprHead (fun _ => .parts rfl rfl rfl) e

theorem reads_iteration : Reads [] (iteration rules) stmtContent := by
  refine .bind (reads_word _) fun _ => .bind (reads_word? _) fun isAwait => .bind (reads_mark _) fun _ => ?_
  refine .bind (reads_iterationHead hr) fun left => .bind (reads_word? _) fun isOf => ?_
  refine .when (reads_word _) ?_
  refine .bind ((hr.expressions _).frame _) fun right => .bind (reads_mark _) fun _ => ?_
  refine .bind ((reads_body hr).frame _) fun inner => .pure ?_
  cases isOf with
  | true => exact gives_stmt₃ (.forOf isAwait) (fun _ _ _ => .parts rfl rfl rfl) (fun _ _ _ => rfl) left right inner
  | false => exact gives_stmt₃ .forIn (fun _ _ _ => .parts rfl rfl rfl) (fun _ _ _ => rfl) left right inner

theorem reads_clause (close : String) : Reads [] (clause rules close) phrase := by
  refine .bind (reads_mark? _) fun _ => ?_
  split
  · exact .pure (.parts rfl rfl rfl)
  · refine .bind (hr.expressions _) fun e => .bind (reads_mark _) fun _ => .pure ?_
    exact .map (Tree.some (c := .expr)) (fun _ => .parts rfl rfl rfl) e

omit hr in
theorem gives_forStmt (init : Reading (Tree (.option .forHead))) (test update : Reading (Tree (.option .expr)))
    (inner : Reading (Tree .body)) :
    Gives (phrase init ++ phrase test ++ phrase update ++ phrase inner)
      (stmtContent (.forStmt <$> init <*> test <*> update <*> inner)) := by
  cases init with
  | error => exact .lost
  | ok init =>
    cases test with
    | error => exact .lost
    | ok test =>
      cases update with
      | error => exact .lost
      | ok update =>
        cases inner with
        | error => exact .lost
        | ok inner =>
          have hfor : Gives [tree init, tree test, tree update, tree inner]
              [tree (.forStmt init test update inner)] := .parts rfl rfl rfl
          exact hfor.also fun _ => rfl

theorem reads_counting : Reads [] (counting rules) stmtContent := by
  refine .bind (reads_word _) fun _ => .bind (reads_mark _) fun _ => ?_
  refine .via phrase (.orElse ?_ ?_) fun init => ?_
  · refine .bind (reads_declaration hr _) fun d => .pure ?_
    refine .map (fun d => Tree.some (.declHead d)) (fun d => ?_) d
    have hhead : Gives [tree d] [tree (.declHead d)] := .parts rfl rfl rfl
    exact hhead.trans (.parts rfl rfl rfl)
  · refine .bind (reads_clause hr _) fun e => .pure ?_
    refine .map (fun e : Tree (.option .expr) => Tree.ofOption (e.toOption.map .exprHead)) (fun e => ?_) e
    cases e with
    | none => exact (Gives.taken rfl).trans (.ofOption none)
    | some e =>
      have hexpr : Gives [tree (.some e)] [tree e] := .taken rfl
      have hhead : Gives [tree e] [tree (.exprHead e)] := .parts rfl rfl rfl
      exact (hexpr.trans hhead).trans (.ofOption (some (.exprHead e)))
  · refine .bind ((reads_clause hr _).frame _) fun test => .bind ((reads_clause hr _).frame _) fun update => ?_
    exact .bind ((reads_body hr).frame _) fun inner => .pure (gives_forStmt init test update inner)

theorem reads_whileLoop : Reads [] (whileLoop rules) stmtContent := by
  refine .bind (reads_word _) fun _ => .bind (reads_condition hr) fun test => ?_
  refine .bind ((reads_body hr).frame _) fun inner => .pure ?_
  have hread : (.whileStmt <$> test <*> inner : Reading Stmt) = do return .whileStmt (← test) (← inner) := by
    cases test <;> cases inner <;> rfl
  rw [hread]
  exact gives_stmt₂ .whileStmt (fun _ _ => .parts rfl rfl rfl) (fun _ _ => rfl) test inner

theorem reads_doLoop : Reads [] (doLoop rules) stmtContent := by
  refine .bind (reads_word _) fun _ => .bind (reads_body hr) fun inner => .bind (reads_word _) fun _ => ?_
  refine .bind ((reads_condition hr).frame _) fun test => ?_
  refine .bind (.discard (.orElse (.map (reads_semicolon _)) (.pure .refl))) fun _ => .pure ?_
  refine gives_stmt₂ (fun u t => .doWhile t u) (fun u t => ?_) (fun _ _ => rfl) inner test
  exact (Gives.of_perm (.swap _ _ _)).trans (.parts rfl rfl rfl)

/-! ## Branches and jumps -/

theorem reads_ifStatement : Reads [] (ifStatement rules) stmtContent := by
  refine .bind (reads_word _) fun _ => .bind (reads_condition hr) fun test => ?_
  refine .bind ((reads_body hr).frame _) fun consequent => .bind (reads_word? _) fun _ => ?_
  split
  · refine .bind ((reads_body hr).frame _) fun alternate => .pure ?_
    refine gives_stmt₃ (fun t u v => .ifStmt t u (.some v)) (fun t u v => ?_) (fun _ _ _ => rfl) test consequent
      alternate
    exact (Gives.cons (.cons (.ofOption (some v)))).trans (.parts rfl rfl rfl)
  · refine .pure (gives_stmt₂ (fun t u => .ifStmt t u .none) (fun t u => ?_) (fun _ _ => rfl) test consequent)
    exact (Gives.cons (.cons (.ofOption none))).trans (.parts rfl rfl rfl)

/-- An optional phrase, if what is there was read. -/
def present {c : Category} : Option (Reading (Tree c)) → Reading (Tree (.option c))
  | some t => Tree.some <$> t
  | none => pure .none

omit hr in
theorem gives_present {c : Category} (r : Option (Reading (Tree c))) :
    Gives (ifPresent phrase r) (phrase (present r)) := by
  cases r with
  | none => exact .ofOption none
  | some r =>
    cases r with
    | error => exact .lost
    | ok t => exact .ofOption (some t)

/-- A case from the comments before its colon on. -/
theorem reads_switchCaseRest (test : Option (Reading Expr)) (lead : List String) :
    Reads (ifPresent phrase test ++ [remarks lead]) (do
      let behind ← takeLead
      mark ":"
      let members ← repeatFrom (pushComments (lead ++ behind) []) fun members => do
        match ← peek with
        | .word "case" | .word "default" | .mark "\x7d" => return (members, false)
        | _ =>
          let (members, _) ← pushStatement rules (pushComments (← takeLead) members)
          return (members, true)
      return do
        let test ← match test with
          | some e => Tree.some <$> e
          | none => pure .none
        return .switchCase test (← blockOfMembers members)) phrase := by
  refine .bind reads_takeLead fun behind => .bind (reads_mark _) fun _ => ?_
  refine .bind (reads_repeatFrom (fun members => ifPresent phrase test ++ membersContent members)
    ?_ fun members => ?_) fun members => .pure ?_
  · rw [List.append_assoc]
    exact .append .refl ((Gives.remarks_append lead behind).trans (gives_pushComments _ []))
  · refine .bind (reads_of_looks looks_peek) fun token => ?_
    split
    · exact .pure .refl
    · exact .pure .refl
    · exact .pure .refl
    · refine .bind reads_takeLead fun lead => ?_
      rw [List.append_assoc]
      refine .of_gives (.append .refl (gives_pushComments lead members)) ?_
      exact .bind (reads_pushStatement hr _ _) fun _ => .pure .refl
  · have hmade : Gives (ifPresent phrase test ++ membersContent members)
        (phrase do return .switchCase (← present test) (← blockOfMembers members)) :=
      (Gives.append (gives_present test) (gives_blockOfMembers members)).trans
        (.bind₂ .switchCase (fun _ _ => .parts rfl rfl rfl) (present test) (blockOfMembers members))
    rcases test with _ | test <;> exact hmade

theorem reads_switchCase : Reads [] (switchCase rules) phrase := by
  refine .bind (reads_word? _) fun _ => ?_
  split
  · exact .via (fun r : Option (Reading Expr) × List String => ifPresent phrase r.1 ++ [remarks r.2]) (.pure .nil_remarks) fun r =>
      reads_switchCaseRest hr r.1 r.2
  · refine .bind (reads_word _) fun _ => .bind reads_takeLead fun lead => ?_
    refine .bind ((hr.expressions _).frame _) fun test => ?_
    exact .via (fun r : Option (Reading Expr) × List String => ifPresent phrase r.1 ++ [remarks r.2]) (.pure (.of_perm List.perm_append_comm)) fun r =>
      reads_switchCaseRest hr r.1 r.2

theorem reads_switchStatement : Reads [] (switchStatement rules) stmtContent := by
  refine .bind (reads_word _) fun _ => .bind (reads_condition hr) fun discriminant => .bind (reads_mark _) fun _ => ?_
  refine .bind (reads_repeatFrom (fun cases => phrase discriminant ++ cases.flatMap phrase)
    (.of_perm (by simp)) fun cases => ?_) fun found => .pure ?_
  · refine .bind (reads_mark? _) fun _ => ?_
    split
    · exact .pure .refl
    · refine .bind ((reads_switchCase hr).frame _) fun c => .pure ?_
      rw [List.append_assoc]
      exact .append .refl (.of_perm List.perm_append_comm)
  · refine .trans (.append .refl (.ofReverse found)) ?_
    cases discriminant with
    | error => exact .lost
    | ok discriminant =>
      cases readAll found.reverse with
      | error => exact .lost
      | ok cs =>
        have hswitch : Gives ([tree discriminant] ++ phrases (.ok cs))
            [tree (.switchStmt discriminant (.ofList cs))] :=
          (Gives.append .refl (.ofList cs fun _ _ => rfl)).trans (.parts rfl rfl rfl)
        exact hswitch.also fun _ => rfl

omit hr in
theorem gives_handler (param : Option Target) (handled : Reading Block) :
    Gives (ifPresent (Target.content false) param ++ phrase handled)
      (phrase do return .handler (← present (param.map Target.asBinder)) (← handled)) := by
  refine Gives.trans (.append ?_ .refl)
    (.bind₂ .handler (fun _ _ => .parts rfl rfl rfl) (present (param.map Target.asBinder)) handled)
  cases param with
  | none => exact gives_present none
  | some p => exact gives_present (some p.asBinder)

omit hr in
theorem gives_tryStmt (inner : Reading Block) (handler : Option (Reading (Tree .handler)))
    (finalizer : Option (Reading Block)) :
    Gives (phrase inner ++ ifPresent phrase handler ++ ifPresent phrase finalizer)
      (stmtContent do return .tryStmt (← inner) (← present handler) (← present finalizer)) :=
  (Gives.append (.append .refl (gives_present handler)) (gives_present finalizer)).trans
    (gives_stmt₃ .tryStmt (fun _ _ _ => .parts rfl rfl rfl) (fun _ _ _ => rfl) inner _ _)

theorem reads_tryStatement : Reads [] (tryStatement rules) stmtContent := by
  refine .bind (reads_word _) fun _ => .bind hr.block fun inner => .bind (reads_word? _) fun isCaught => ?_
  split
  case' isTrue =>
    refine .bind (reads_mark? _) fun isBound => ?_
    split
    case' isTrue =>
      refine .bind ((hr.pattern false).frame _) fun p => .bind (reads_mark _) fun _ => ?_
      refine .via (fun param => phrase inner ++ ifPresent (Target.content false) param) (.pure .refl) fun param => ?_
    case' isFalse =>
      refine .via (fun param => phrase inner ++ ifPresent (Target.content false) param)
        (.pure (.of_perm (by simp [ifPresent]))) fun param => ?_
    all_goals
      refine .bind (hr.block.frame _) fun handled => ?_
      refine .via (fun handler => phrase inner ++ ifPresent phrase handler) (.pure ?_) fun handler => ?_
      · rw [List.append_assoc]
        refine .append .refl ?_
        rcases param with _ | p <;> exact gives_handler _ handled
  case' isFalse =>
    refine .via (fun handler => phrase inner ++ ifPresent phrase handler)
      (.pure (.of_perm (by simp [ifPresent]))) fun handler => ?_
  all_goals
    refine .bind (reads_word? _) fun isFinalized => ?_
    cases isFinalized
    case' true =>
      refine .via (fun finalizer => phrase inner ++ ifPresent phrase handler ++ ifPresent phrase finalizer)
        (.map (hr.block.frame _)) fun finalizer => .pure ?_
    case' false =>
      refine .via (fun finalizer => phrase inner ++ ifPresent phrase handler ++ ifPresent phrase finalizer)
        (.pure (.of_perm (by simp [ifPresent]))) fun finalizer => .pure ?_
    all_goals
      rcases handler with _ | handler <;> rcases finalizer with _ | finalizer <;>
        exact gives_tryStmt inner _ _

theorem reads_returnStatement : Reads [] (returnStatement rules) stmtContent := by
  refine .bind (reads_word _) fun _ => .bind (reads_of_looks (looks_atSemicolon _)) fun _ => ?_
  refine .bind (reads_of_looks (looks_atMark _)) fun _ => ?_
  have hreturn : ∀ t : Option Expr, Gives (ifPresent (fun t => [tree t]) t) [tree (.returnStmt (.ofOption t))] :=
    fun t => (Gives.ofOption t).trans (.parts rfl rfl rfl)
  split
  · refine .bind ((reads_semicolon _).discard) fun _ => .pure ?_
    exact (hreturn none).also fun _ => rfl
  · refine .bind (hr.expressions _) fun value => .bind ((reads_semicolon _).discard) fun _ => .pure ?_
    exact gives_stmt (fun e => .returnStmt (.some e)) (fun e => hreturn (some e)) (fun _ => rfl) value

theorem reads_throwStatement : Reads [] (throwStatement rules) stmtContent := by
  refine .bind (reads_word _) fun _ => .bind (hr.expressions _) fun value => ?_
  refine .bind ((reads_semicolon _).discard) fun _ => .pure ?_
  exact gives_stmt .throwStmt (fun _ => .parts rfl rfl rfl) (fun _ => rfl) value

omit hr in
theorem reads_jump (text : String) {make : Option String → Stmt}
    (hmake : ∀ label, Gives [] (stmtContent (.ok (make label)))) : Reads [] (jump text make) stmtContent := by
  have hend : ∀ label : Option (String × Nat), Reads [] (do
      discard (semicolon false)
      return .ok (make (label.map (·.1)))) stmtContent := fun label =>
    .bind (reads_semicolon _).discard fun _ => .pure (hmake _)
  refine .bind (reads_word _) fun _ => .bind (reads_of_looks (looks_atSemicolon _)) fun ends => ?_
  cases ends with
  | true => exact .bind (.pure .refl) hend
  | false =>
    refine .bind (.orElse (.map (reads_name.gives fun _ => .place_nil)) (.pure .refl)) hend

theorem reads_labeledStatement : Reads [] (labeledStatement rules) stmtContent := by
  refine .bind (reads_name.gives fun _ => .place_nil) fun label => .bind (reads_mark _) fun _ => ?_
  refine .bind (reads_body hr) fun inner => .pure ?_
  exact gives_stmt (.labeled label.1) (fun _ => .parts rfl rfl rfl) (fun _ => rfl) inner

/-! ## Statements without a tree -/

theorem reads_withStatement : Reads [] (withStatement rules) stmtContent := by
  refine .bind (reads_unsupported [lost] _ _ ?_) fun _ => .pure .refl
  exact .bind (reads_word _) fun _ => .bind (reads_condition hr).lose fun _ => (reads_body hr).lose

theorem reads_moduleName : Reads [lost] (fromClause.moduleName rules) fun _ => [lost] := by
  refine .bind (reads_accept _) fun _ => .bind (reads_of_looks (looks_atWord _)) fun _ => ?_
  refine .bind (reads_of_looks (looks_atWord _)) fun _ => ?_
  split
  · exact .bind reads_advance fun _ => (reads_objectMembers hr).lose
  · exact .pure .refl

theorem reads_fromClause : Reads [lost] (fromClause rules) fun _ => [lost] :=
  .bind (reads_word _) fun _ => reads_moduleName hr

omit hr in
theorem reads_moduleNames : Reads [lost] moduleNames fun _ => [lost] := by
  refine .bind (reads_mark _) fun _ => Reads.lose (reads_elements _ (?_ : Reads [] _ fun _ => []))
  refine .bind (reads_accept _) fun _ => .bind (reads_word? _) fun _ => ?_
  split
  · exact reads_accept _
  · exact .pure .refl

omit hr in
theorem reads_moduleStar : Reads [lost] moduleStar fun _ => [lost] := by
  refine .bind (reads_mark _) fun _ => .bind (reads_word? _) fun _ => ?_
  split
  · exact reads_accept _
  · exact .pure .refl

theorem reads_importStatement : Reads [] (importStatement rules) stmtContent := by
  have hseveral : Reads [lost] (moduleNames <|> moduleStar) fun _ => [lost] :=
    .orElse reads_moduleNames reads_moduleStar
  refine .bind (reads_unsupported [lost] _ _ (.of_gives .lost ?_)) fun _ => .pure .refl
  refine .bind (reads_word _) fun _ => .bind (.orElse ?_ (reads_moduleName hr)) fun _ => ?_
  · refine .bind (.orElse hseveral ?_) fun _ => reads_fromClause hr
    refine .bind reads_name.lose fun _ => .bind (reads_mark? _) fun _ => ?_
    split
    · exact hseveral
    · exact .pure .refl
  · exact (reads_semicolon _).discard

theorem reads_exportStatement : Reads [] (exportStatement rules) stmtContent := by
  refine .bind (reads_unsupported [lost] _ _ ?_) fun _ => .pure .refl
  refine .bind (reads_decorators hr) fun _ => .of_gives .lost (.bind (reads_word _) fun _ => .orElse ?_ (.orElse ?_ ?_))
  · refine .bind (reads_of_looks (looks_atMark _)) fun isStar => ?_
    refine .bind (.orElse reads_moduleNames reads_moduleStar) fun _ => .bind (reads_of_looks (looks_atWord _)) fun _ => ?_
    exact .when (reads_fromClause hr) (reads_semicolon _).discard
  · exact .orElse (reads_namedDeclaration hr).lose (reads_declaration hr _).lose
  · refine .bind (reads_word _) fun _ => .orElse (reads_namedDeclaration hr).lose ?_
    exact .bind (hr.expression _).lose fun _ => (reads_semicolon _).discard

omit hr in
theorem reads_markupComment : Reads [] markupComment stmtContent := by
  refine .get fun source s => .look (Markup.looks_ahead _) fun _ hopen => .look (Markup.looks_ahead _) fun _ hclose => ?_
  refine .look (looks_require _) fun _ hahead => ?_
  have hopens : (after? "<!--".toList s.next.here).isSome ∨ (after? "-->".toList s.next.here).isSome := by
    simpa [Markup.ahead_eq_some hopen, Markup.ahead_eq_some hclose] using require_eq_some hahead
  have hthere : s.next.here ≠ [] := by
    intro hnil
    rw [hnil] at hopens
    exact hopens.elim (by decide) (by decide)
  have hstretch : Stretch (s.next.here.takeWhile fun c => !Character.endsLine c)
      (s.next.here.dropWhile fun c => !Character.endsLine c) :=
    .line (hopens.imp (after?_takeWhile (by decide)) (after?_takeWhile (by decide))) fun c hc => by
      simpa using List.all_eq_true.mp List.all_takeWhile c hc
  refine .bind (readsFrom_resumeAt List.takeWhile_append_dropWhile.symm hstretch (.inl hthere) rfl) fun _ => ?_
  exact .bind (reads_of_looks (looks_snippetFrom _ _)) fun _ => .pure .lost

/-! ## All statements -/

theorem reads_expressionStatement : Reads [] (expressionStatement rules) Statement.content := by
  refine .bind (hr.expressions _) fun e => .bind (reads_semicolon _) fun _ => .pure ?_
  exact gives_stmt .exprStmt (fun _ => .parts rfl rfl rfl) (fun _ => rfl) e

theorem reads_bracedStatement : Reads [] (bracedStatement rules) Statement.content := by
  refine .orElse ?_ (.bind hr.block fun inner => .pure ?_)
  · refine .bind (reads_of_looks looks_startsObject) fun _ => ?_
    exact .bind (reads_of_looks (looks_require _)) fun _ => reads_expressionStatement hr
  · exact gives_stmt .blockStmt (fun _ => .parts rfl rfl rfl) (fun _ => rfl) inner

omit hr in
/-- A statement made of nothing. -/
theorem gives_emptyStmt {s : Stmt} (hs : Gives [] [tree s]) (hproper : s.isProper = true) :
    Gives [] (stmtContent (.ok s)) := hs.also fun _ => hproper

theorem reads_wordStatement (text : String) : Reads [] (wordStatement rules text) stmtContent := by
  have hdeclaration : Reads [] (do return .varStmt <$> (← declaration rules true)) stmtContent :=
    .bind (reads_declaration hr _) fun d => .pure
      (gives_stmt .varStmt (fun _ => .parts rfl rfl rfl) (fun _ => rfl) d)
  unfold wordStatement
  split
  · exact reads_ifStatement hr
  · exact .orElse (reads_iteration hr) (reads_counting hr)
  · exact reads_whileLoop hr
  · exact reads_doLoop hr
  · exact reads_switchStatement hr
  · exact reads_tryStatement hr
  · exact reads_returnStatement hr
  · exact reads_throwStatement hr
  · exact reads_jump _ fun _ => gives_emptyStmt (Gives.parts rfl rfl rfl) rfl
  · exact reads_jump _ fun _ => gives_emptyStmt (Gives.parts rfl rfl rfl) rfl
  · refine .bind (reads_word _) fun _ => .bind ((reads_semicolon _).discard) fun _ => .pure ?_
    exact gives_emptyStmt (Gives.parts rfl rfl rfl) rfl
  · exact hdeclaration
  · exact hdeclaration
  · exact hdeclaration
  · exact reads_resourceDeclaration hr
  · exact reads_resourceDeclaration hr
  · exact reads_withStatement hr
  · exact reads_importStatement hr
  · exact reads_exportStatement hr
  · exact reads_failure

theorem reads_statement : Reads [] (statement rules) Statement.content := by
  refine .bind (reads_of_looks looks_peek) fun token => ?_
  split
  · exact reads_bracedStatement hr
  · exact .bind reads_advance fun _ => .pure (gives_emptyStmt (Gives.parts rfl rfl rfl) rfl)
  · refine .orElse (.bind ?_ fun _ => .pure .refl) (reads_expressionStatement hr)
    exact .orElse (reads_exportStatement hr) (reads_namedDeclaration hr)
  · split
    · exact .bind (reads_wordStatement hr _) fun _ => .pure .refl
    · refine .bind (reads_of_looks looks_atDeclaration) fun _ => ?_
      split
      · exact .bind (reads_namedDeclaration hr) fun _ => .pure .refl
      · refine .bind (reads_of_looks looks_foresees) fun _ => ?_
        split
        · exact .bind (reads_labeledStatement hr) fun _ => .pure .refl
        · exact .orElse (.bind (reads_wordStatement hr _) fun _ => .pure .refl) (reads_expressionStatement hr)
  · exact .orElse (.bind reads_markupComment fun _ => .pure .refl) (reads_expressionStatement hr)

omit hr

/-! ## The grammar -/

/-- However deep phrases may nest, the rules read what they stand for. -/
theorem sound_grammar (n : Nat) : (grammar n).Sound := by
  induction n with
  | zero =>
    exact {
      expression := fun _ => reads_failure
      expressions := fun _ => reads_failure
      operation := fun _ _ => reads_failure
      operand := fun _ => reads_failure
      pattern := fun _ => reads_failure
      statement := reads_failure
      block := reads_failure
      classRest := reads_failure
      markup := reads_failure }
  | succ n ih =>
    exact {
      expression := reads_expression ih
      expressions := reads_expressions ih
      operation := reads_operation ih
      operand := reads_operand ih
      pattern := reads_pattern ih
      statement := reads_statement ih
      block := reads_block ih
      classRest := reads_classRest ih
      markup := reads_markup ih }

end Unminify.Grammar
