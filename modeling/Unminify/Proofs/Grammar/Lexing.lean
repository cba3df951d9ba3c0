import Unminify.Proofs.Grammar.Scanning

/-!
# Sources given by their tokens

A source without comments whose tokens are known (`Lexes`). Names are scanned as far as they go, so a
name must be followed by something that cannot continue it (`Breaks`); the marks around statements stand
for themselves whatever follows.

`Lexeme.Ahead` says the same of the source from a look-ahead on. This is all that a parser gets to know
of a source without comments: taking a token leads to the tokens behind it (`Lexes.ahead_next`).
-/

namespace Unminify.Grammar

open Character

/-! ## Names and marks -/

/-- What stands next does not continue a name. -/
def Breaks (cs : List Char) : Prop := ∀ c ∈ cs.head?, isNamePart c = false ∧ c ≠ '\\'

theorem unicodeEscapeAt?_append {cs escape rest : List Char} (h : unicodeEscapeAt? cs = some (escape, rest))
    (more : List Char) : unicodeEscapeAt? (cs ++ more) = some (escape, rest ++ more) := by
  unfold unicodeEscapeAt? at h
  split at h
  next cs =>
    dsimp only at h
    split at h
    next rest' hrest =>
      have hdrop : (cs ++ more).dropWhile isHexDigit = '\x7d' :: (rest' ++ more) := by
        rw [List.dropWhile_append, hrest]
        rfl
      have htake : (cs ++ more).takeWhile isHexDigit = cs.takeWhile isHexDigit := by
        rw [List.takeWhile_append, if_neg]
        intro hlength
        have hall := congrArg List.length (List.takeWhile_append_dropWhile (p := isHexDigit) (l := cs))
        rw [hrest, List.length_append, List.length_cons] at hall
        omega
      split at h
      · cases h
      next hdigits =>
        cases h
        simp only [unicodeEscapeAt?, List.cons_append, htake, hdrop, if_neg hdigits]
    next => cases h
  next hbrace =>
    split at h
    next hall =>
      cases h
      rw [List.cons_append, List.cons_append, List.cons_append, List.cons_append, List.cons_append,
        List.cons_append, unicodeEscapeAt?.eq_2 _ _ _ _ _ hbrace, if_pos hall]
    · cases h
  next => cases h

theorem unicodeEscapeAt?_of_ne {c : Char} (h : c ≠ '\\') (cs : List Char) :
    unicodeEscapeAt? (c :: cs) = none :=
  unicodeEscapeAt?.eq_3 _ (fun _ heq => h (List.cons.inj heq).1) fun _ _ _ _ _ heq => h (List.cons.inj heq).1

theorem Breaks.nameParts {cs : List Char} (h : Breaks cs) (n : Nat) : nameParts n cs = ([], cs) := by
  cases n with
  | zero => rfl
  | succ n =>
    cases cs with
    | nil => rfl
    | cons c cs =>
      obtain ⟨hpart, hne⟩ := h c rfl
      simp only [Grammar.nameParts, hpart, Bool.false_eq_true, if_false, unicodeEscapeAt?_of_ne hne]

/-- A name is read up to where nothing continues it. -/
theorem nameParts_append {n m : Nat} {cs text rest : List Char} (h : nameParts n cs = (text, [])) (hn : n ≤ m)
    (hrest : Breaks rest) : nameParts m (cs ++ rest) = (text, rest) := by
  induction n generalizing m cs text with
  | zero =>
    obtain ⟨rfl, rfl⟩ := Prod.mk.inj h
    exact hrest.nameParts m
  | succ n ih =>
    obtain ⟨m, rfl⟩ : ∃ k, m = k + 1 := ⟨m - 1, by omega⟩
    have hle : n ≤ m := Nat.le_of_succ_le_succ hn
    cases cs with
    | nil =>
      obtain ⟨rfl, -⟩ := Prod.mk.inj h
      exact hrest.nameParts (m + 1)
    | cons c cs =>
      rw [List.cons_append]
      simp only [nameParts] at h ⊢
      by_cases hpart : isNamePart c = true
      · rw [if_pos hpart] at h ⊢
        obtain ⟨rfl, htail⟩ := Prod.mk.inj h
        rw [ih (Prod.ext rfl htail) hle]
      · rw [if_neg hpart] at h ⊢
        cases hescape : unicodeEscapeAt? (c :: cs) with
        | none =>
          rw [hescape] at h
          cases h
        | some found =>
          obtain ⟨escape, behind⟩ := found
          rw [hescape] at h
          obtain ⟨rfl, htail⟩ := Prod.mk.inj h
          have hmore := unicodeEscapeAt?_append hescape rest
          rw [List.cons_append] at hmore
          rw [hmore]
          simp only [ih (Prod.ext rfl htail) hle]

theorem nameAt?_append {cs text rest : List Char} (h : nameAt? cs = some (text, [])) (hrest : Breaks rest) :
    nameAt? (cs ++ rest) = some (text, rest) := by
  cases cs with
  | nil => cases h
  | cons c cs =>
    simp only [nameAt?] at h
    split at h
    next hstart =>
      have hparts := nameParts_append (Option.some.inj h) (m := (c :: cs ++ rest).length)
        (by rw [List.length_append]; omega) hrest
      have hstart' : (isNameStart c || (unicodeEscapeAt? (c :: cs ++ rest)).isSome) = true := by
        rcases Bool.or_eq_true_iff.mp hstart with hstart | hescape
        · rw [hstart, Bool.true_or]
        · obtain ⟨⟨escape, behind⟩, hescape⟩ := Option.isSome_iff_exists.mp hescape
          rw [unicodeEscapeAt?_append hescape, Option.isSome_some, Bool.or_true]
      rw [List.cons_append] at hparts hstart' ⊢
      simp only [nameAt?, if_pos hstart', hparts]
    next => cases h

/-- What starts with a name is neither a string nor a private name. -/
theorem tokenAt_of_nameAt? {cs text rest : List Char} (h : nameAt? cs = some (text, rest)) :
    tokenAt cs = (.word (String.ofList text), rest) := by
  cases cs with
  | nil => cases h
  | cons c cs =>
    have hne (d : Char) (hd : isNameStart d = false ∧ d ≠ '\\') : c ≠ d := by
      rintro rfl
      simp [nameAt?, hd.1, unicodeEscapeAt?_of_ne hd.2] at h
    have hquote : (c == '"' || c == '\x27') = false := by
      simp [hne '"' (by decide), hne '\x27' (by decide)]
    have hhash : (c == '#') = false := by simp [hne '#' (by decide)]
    simp only [tokenAt, hquote, hhash, Bool.false_eq_true, if_false, h]

/-- The marks around statements. -/
def brackets : List Char := ['(', ')', ';', ':', '\x7b', '\x7d']

theorem digitRun_of_not {isDigit : Char → Bool} {c : Char} (h : isDigit c = false) (cs : List Char) :
    digitRun isDigit (c :: cs) = ([], c :: cs) := by
  unfold digitRun
  split <;> simp_all

theorem numberAt?_of_not {c : Char} (h : c.isDigit = false) (hpoint : c ≠ '.') (cs : List Char) :
    numberAt? (c :: cs) = none := by
  unfold numberAt?
  dsimp only
  split
  next heq => exact absurd (List.cons.inj heq).1 hpoint
  next heq =>
    rw [(List.cons.inj heq).1] at h
    exact absurd h (by decide)
  next => rw [digitRun_of_not h]

theorem tokenAt_bracket {c : Char} (h : c ∈ brackets) (cs : List Char) :
    tokenAt (c :: cs) = (.mark (String.ofList [c]), cs) := by
  simp only [brackets, List.mem_cons, List.not_mem_nil, or_false] at h
  rcases h with rfl | rfl | rfl | rfl | rfl | rfl
  all_goals
    rw [tokenAt.eq_2, numberAt?_of_not (by decide) (by decide)]
    rfl

/-! ## The tokens of a source -/

/-- A source consists of some tokens with blanks between them; it has no comments. -/
inductive Lexes : List Char → List Token → Prop
  | nil : Lexes [] []
  | blank {c : Char} {cs : List Char} {ts : List Token} (hc : isBlank c = true) (h : Lexes cs ts) :
      Lexes (c :: cs) ts
  | token {cs rest : List Char} {t : Token} {ts : List Token}
      (hstart : ∀ c ∈ cs.head?, isBlank c = false ∧ c ≠ '/') (h : tokenAt cs = (t, rest))
      (hshort : rest.length < cs.length) (hrest : Lexes rest ts) : Lexes cs (t :: ts)

section

variable {cs rest : List Char} {t : Token} {ts : List Token}

theorem Lexes.length_le (h : Lexes cs ts) : ts.length ≤ cs.length := by
  induction h with
  | nil => exact Nat.le_refl _
  | blank _ _ ih => exact Nat.le_succ_of_le ih
  | token _ _ hshort _ ih =>
    rw [List.length_cons]
    omega

theorem Lexes.word {text : List Char} (htext : nameAt? text = some (text, [])) (hrest : Breaks rest)
    (h : Lexes rest ts) : Lexes (text ++ rest) (.word (String.ofList text) :: ts) := by
  refine .token (fun c hc => ?_) (tokenAt_of_nameAt? (nameAt?_append htext hrest)) ?_ h
  · cases text with
    | nil => cases htext
    | cons d text =>
      obtain rfl : d = c := Option.some.inj hc
      simp only [nameAt?] at htext
      split at htext
      next hstart =>
        by_cases hd : d = '\\'
        · rw [hd]
          decide
        · rw [unicodeEscapeAt?_of_ne hd, Option.isSome_none, Bool.or_false, isNameStart, isNamePart] at hstart
          refine ⟨by simp_all, ?_⟩
          rintro rfl
          exact absurd hstart (by decide)
      next => cases htext
  · have hpos := List.length_pos_iff.mpr (nameAt?_ne_nil htext)
    rw [List.length_append]
    omega

theorem Lexes.bracket {c : Char} (hc : c ∈ brackets) (h : Lexes rest ts) :
    Lexes (c :: rest) (.mark (String.ofList [c]) :: ts) := by
  have hall : ∀ c ∈ brackets, isBlank c = false ∧ c ≠ '/' := List.forall_iff_forall_mem.mp (by decide)
  refine .token (fun d hd => ?_) (tokenAt_bracket hc rest) (Nat.lt_succ_self _) h
  obtain rfl : c = d := Option.some.inj hd
  exact hall c hc

theorem Lexes.of_blank {c : Char} (hc : isBlank c = true) (h : Lexes (c :: cs) ts) : Lexes cs ts := by
  cases h with
  | blank _ h => exact h
  | token hstart => exact absurd hc (by simp [(hstart c rfl).1])

theorem Lexes.not_slash (h : Lexes ('/' :: cs) ts) : False := by
  cases h with
  | blank hc _ => exact absurd hc (by decide)
  | token hstart => exact (hstart _ rfl).2 rfl

/-- A gap without comments that leads to the first of some tokens. -/
structure Gap.LeadsTo (g : Gap) (ts : List Token) : Prop where
  closed : g.unclosed = false
  commentless : commentsOf g.pieces = []
  starts : ∀ c ∈ g.rest.head?, isBlank c = false
  lexes : Lexes g.rest ts

/-- The gap in front of the first token holds blanks only. -/
theorem Lexes.gapFrom (h : Lexes cs ts) {mode : GapMode} (hmode : mode = .between ∨ ∃ b, mode = .blanks b)
    (position : Nat) : (gapFrom mode position cs).LeadsTo ts := by
  fun_induction Grammar.gapFrom mode position cs with
  | case1 | case6 => exact ⟨rfl, rfl, by simp, h⟩
  | case2 | case3 | case7 | case8 => exact h.not_slash.elim
  | case4 _ _ _ _ _ hc ih | case9 _ _ _ _ _ _ hc ih => exact ih (h.of_blank hc) (.inr ⟨_, rfl⟩)
  | case5 _ _ _ _ _ hc | case10 _ _ _ _ _ _ hc =>
    refine ⟨rfl, rfl, fun d hd => ?_, h⟩
    obtain rfl := Option.some.inj hd
    exact eq_false_of_ne_true hc
  | _ => rcases hmode with hmode | ⟨b, hmode⟩ <;> cases hmode

/-- From a look-ahead on, a source consists of some tokens and has no comments. -/
structure Lexeme.Ahead (l : Lexeme) (ts : List Token) : Prop where
  commentless : commentsOf l.gap = []
  token : tokenAt l.here = (l.token, l.rest)
  starts : ∀ c ∈ l.here.head?, isBlank c = false
  lexes : Lexes l.here ts

theorem Lexes.ahead_next (h : Lexes cs ts) (position : Nat) : (Lexeme.next position cs).Ahead ts := by
  obtain ⟨hclosed, hcomments, hstarts, hlexes⟩ := h.gapFrom (.inl rfl) position
  refine ⟨hcomments, ?_, hstarts, hlexes⟩
  simp only [Lexeme.next, hclosed, Bool.false_eq_true, if_false]

namespace Lexeme.Ahead

variable {l : Lexeme}

theorem length_le (h : l.Ahead ts) : ts.length ≤ l.here.length := h.lexes.length_le

/-- The look-ahead is the first of the tokens; behind it stand the others. -/
theorem uncons (h : l.Ahead (t :: ts)) : l.token = t ∧ Lexes l.rest ts := by
  obtain ⟨-, htoken, hstarts, hlexes⟩ := h
  generalize l.here = here at htoken hstarts hlexes
  cases hlexes with
  | blank hc _ => exact absurd hc (by simp [hstarts _ rfl])
  | token _ htoken' _ hrest =>
    obtain ⟨rfl, rfl⟩ := Prod.mk.inj (htoken'.symm.trans htoken)
    exact ⟨rfl, hrest⟩

theorem token_eq (h : l.Ahead ts) : l.token = ts.headD .endOfInput := by
  cases ts with
  | cons t ts => exact h.uncons.1
  | nil =>
    obtain ⟨-, htoken, hstarts, hlexes⟩ := h
    generalize l.here = here at htoken hstarts hlexes
    cases hlexes with
    | blank hc _ => exact absurd hc (by simp [hstarts _ rfl])
    | nil => exact (Prod.mk.inj htoken).1.symm

theorem here_eq (h : l.Ahead (t :: ts)) (ht : t ≠ .unknown) : l.here = t.text ++ l.rest := by
  obtain rfl := h.uncons.1
  exact (tokenAt_text h.token ht).1

end Lexeme.Ahead

end

end Unminify.Grammar
