import Mathlib.Data.String.Basic
import Unminify.Grammar.Script

/-!
# How a source is cut into gaps and stretches

A parser goes through its source from left to right: it passes a gap, takes a stretch of text, passes
the next gap, and so on. A stretch is a token or a part of the text that is not made of tokens
(`Stretch`). `Scanned` says where one can come to in this way, and which comments are passed.

The functions that look for a token, a regular expression or a gap give back the text they have left.
What they have taken is the text in front of that (`tokenAt_text`, `regexPattern_text`,
`exists_gapText`), so that byte offsets can be told from what is left.

`State.Stands` ties the state of a parser to its source: the look-ahead is what stands at its place,
and the comments the parser has passed are those of the source up to there.
-/

namespace Unminify.Grammar

open Character

/-! ## Lengths in bytes -/

theorem byteLength_eq (cs : List Char) : byteLength cs = String.utf8Len cs := by
  have hfold : ∀ (cs : List Char) (n : Nat),
      cs.foldl (fun n c => n + c.utf8Size) n = n + String.utf8Len cs := by
    intro cs
    induction cs with
    | nil => exact fun n => rfl
    | cons c cs ih =>
      intro n
      rw [List.foldl_cons, ih, String.utf8Len_cons]
      omega
  rw [byteLength, hfold, Nat.zero_add]

@[simp] theorem byteLength_nil : byteLength [] = 0 := rfl

@[simp] theorem byteLength_cons (c : Char) (cs : List Char) :
    byteLength (c :: cs) = c.utf8Size + byteLength cs := by
  rw [byteLength_eq, byteLength_eq, String.utf8Len_cons, Nat.add_comm]

@[simp] theorem byteLength_append (cs ds : List Char) :
    byteLength (cs ++ ds) = byteLength cs + byteLength ds := by
  simp only [byteLength_eq, String.utf8Len_append]

theorem byteLength_toList (text : String) : byteLength text.toList = text.utf8ByteSize := by
  rw [byteLength_eq, ← String.utf8ByteSize_ofList, String.ofList_toList]

theorem utf8ByteSize_ofList (cs : List Char) : (String.ofList cs).utf8ByteSize = byteLength cs := by
  rw [byteLength_eq, String.utf8ByteSize_ofList]

theorem utf8Size_of_le {c : Char} (h : c ≤ 'z') : c.utf8Size = 1 :=
  if_pos (UInt32.le_trans h (by decide))

/-- Characters of one byte each. -/
theorem byteLength_of_small {cs : List Char} (h : ∀ c ∈ cs, c.utf8Size = 1) :
    byteLength cs = cs.length := by
  induction cs with
  | nil => rfl
  | cons c cs ih =>
    rw [List.forall_mem_cons] at h
    rw [byteLength_cons, h.1, ih h.2, List.length_cons, Nat.add_comm]

/-! ## Gaps -/

/-- A gap takes a text off the front of a source. -/
def Gap.Takes (g : Gap) (position : Nat) (cs : List Char) : Prop :=
  ∃ text, cs = text ++ g.rest ∧ g.stop = position + byteLength text

theorem Gap.Takes.nothing {pieces : List Piece} {position : Nat} {cs : List Char} {unclosed : Bool} :
    Gap.Takes { pieces, stop := position, rest := cs, unclosed } position cs :=
  ⟨[], rfl, rfl⟩

theorem Gap.Takes.push {g : Gap} {p : Piece} {position : Nat} {cs : List Char} (h : g.Takes position cs) :
    (g.push p).Takes position cs := h

/-- A character in front is taken as well. -/
theorem Gap.Takes.cons {g : Gap} {position : Nat} {c : Char} {cs : List Char}
    (h : g.Takes (position + c.utf8Size) cs) : g.Takes position (c :: cs) := by
  obtain ⟨text, hrest, hstop⟩ := h
  refine ⟨c :: text, congrArg (c :: ·) hrest, ?_⟩
  rw [hstop, byteLength_cons, Nat.add_assoc]

theorem takes_gapFrom (mode : GapMode) (position : Nat) (cs : List Char) :
    (gapFrom mode position cs).Takes position cs := by
  have hslash : '/'.utf8Size = 1 := by decide
  have hstar : '*'.utf8Size = 1 := by decide
  have htwo : ∀ {g : Gap} {position : Nat} {c d : Char} {cs : List Char}, c.utf8Size = 1 → d.utf8Size = 1 →
      g.Takes (position + 2) cs → g.Takes position (c :: d :: cs) := by
    intro g position c d cs hc hd h
    exact .cons (.cons (by rwa [hc, hd]))
  fun_induction gapFrom mode position cs
  case case1 | case5 | case6 | case10 | case11 | case14 => exact .nothing
  case case2 ih => exact htwo hslash hslash ih
  case case3 ih => exact htwo hslash hstar ih
  case case7 ih => exact .push (htwo hslash hslash ih)
  case case8 ih => exact .push (htwo hslash hstar ih)
  case case15 ih => exact .push (htwo hstar hslash ih)
  case case12 ih => exact .push (.cons ih)
  case case4 ih | case9 ih | case13 ih | case16 ih => exact .cons ih

/-- Behind a comment without an end there is nothing. -/
theorem rest_of_unclosed {mode : GapMode} {position : Nat} {cs : List Char}
    (h : (gapFrom mode position cs).unclosed = true) : (gapFrom mode position cs).rest = [] := by
  fun_induction gapFrom mode position cs
  case case1 | case5 | case6 | case10 | case11 => cases h
  case case14 => rfl
  all_goals
    rename_i ih
    exact ih h

/-- A gap leads from one place of a source to another, past some comments. -/
def Gapped (source : List Char) (comments : List String) (behind : List Char) : Prop :=
  ∃ position, (gapFrom .between position source).unclosed = false ∧
    commentsOf (gapFrom .between position source).pieces = comments ∧
    (gapFrom .between position source).rest = behind

/-! ## Tokens -/

theorem unicodeEscapeAt?_text {cs escape rest : List Char}
    (h : unicodeEscapeAt? cs = some (escape, rest)) : cs = escape ++ rest := by
  unfold unicodeEscapeAt? at h
  split at h
  next cs =>
    dsimp only at h
    split at h
    next rest' hrest =>
      split at h
      · cases h
      · cases h
        have hdigits := List.takeWhile_append_dropWhile (p := isHexDigit) (l := cs)
        rw [hrest] at hdigits
        rw [List.append_assoc, List.singleton_append, List.cons_append, List.cons_append, List.cons_append,
          hdigits]
    next => cases h
  next =>
    split at h
    · cases h
      rfl
    · cases h
  next => cases h

theorem nameParts_text (n : Nat) (cs : List Char) : (nameParts n cs).1 ++ (nameParts n cs).2 = cs := by
  fun_induction nameParts n cs
  case case3 hmore ih => simpa [hmore] using ih
  case case4 hescape _ _ hmore ih =>
    rw [hmore] at ih
    rw [unicodeEscapeAt?_text hescape, ← ih, List.append_assoc]
  all_goals rfl

theorem nameAt?_text {cs text rest : List Char} (h : nameAt? cs = some (text, rest)) : cs = text ++ rest := by
  cases cs with
  | nil => cases h
  | cons c cs =>
    simp only [nameAt?] at h
    split at h
    · have hparts := nameParts_text (c :: cs).length (c :: cs)
      rw [Option.some.inj h] at hparts
      exact hparts.symm
    · cases h

theorem digitRun_text (isDigit : Char → Bool) (cs : List Char) :
    (digitRun isDigit cs).1 ++ (digitRun isDigit cs).2 = cs := by
  fun_induction digitRun isDigit cs
  case case1 hmore ih => simpa [hmore] using ih
  case case4 hmore ih => simpa [hmore] using ih
  all_goals rfl

theorem exponentPart_text (cs : List Char) : (exponentPart cs).1 ++ (exponentPart cs).2 = cs := by
  unfold exponentPart
  extract_lets signed
  have hsigned : ∀ {head rest : List Char}, cs = head ++ rest →
      (signed head rest).1 ++ (signed head rest).2 = cs := by
    intro head rest hcs
    have hrun := digitRun_text Char.isDigit rest
    simp only [signed]
    split
    next => rfl
    next ds rest' _ heq => rw [heq] at hrun; rw [hcs, List.append_assoc, hrun]
  split
  · split
    · split
      · exact hsigned rfl
      · exact hsigned rfl
    · rfl
  · rfl

theorem bigIntSuffix_text (cs : List Char) : (bigIntSuffix cs).1 ++ (bigIntSuffix cs).2 = cs := by
  unfold bigIntSuffix
  split <;> rfl

theorem numberAt?_text {cs text rest : List Char} (h : numberAt? cs = some (text, rest)) : cs = text ++ rest := by
  unfold numberAt? at h
  extract_lets radix decimal at h
  have hradix : ∀ {isDigit : Char → Bool} {head behind : List Char}, cs = head ++ behind →
      radix isDigit head behind = some (text, rest) → cs = text ++ rest := by
    intro isDigit head behind hcs hread
    have hrun := digitRun_text isDigit behind
    simp only [radix] at hread
    split at hread
    · cases hread
    next ds more _ heq =>
      rw [heq] at hrun
      have hsuffix := bigIntSuffix_text more
      cases hread
      rw [hcs, ← hrun, List.append_assoc, List.append_assoc, hsuffix]
  have hdecimal : decimal = some (text, rest) → cs = text ++ rest := by
    intro hread
    have hrun := digitRun_text Char.isDigit cs
    simp only [decimal] at hread
    split at hread
    · cases hread
    next ds behind _ heq =>
      rw [heq] at hrun
      subst hrun
      split at hread
      next starts more hstarts =>
        have hplaces := digitRun_text Char.isDigit more
        have hexponent := exponentPart_text (digitRun Char.isDigit more).2
        cases hread
        simp only [List.append_assoc, List.cons_append, hexponent, hplaces]
      next behind _ _ _ =>
        have htail : (if startsDecimal ds = true then exponentPart behind else ([], behind)).1 ++
            (if startsDecimal ds = true then exponentPart behind else ([], behind)).2 = behind := by
          split
          · exact exponentPart_text behind
          · rfl
        split at hread
        next more heq =>
          rw [heq] at htail
          have hsuffix := bigIntSuffix_text more
          cases hread
          rw [List.append_assoc, hsuffix, ← htail, List.nil_append]
        next e more _ heq =>
          rw [heq] at htail
          cases hread
          rw [List.append_assoc, htail]
  have hor : ∀ {isDigit : Char → Bool} {head behind : List Char}, cs = head ++ behind →
      (radix isDigit head behind <|> decimal) = some (text, rest) → cs = text ++ rest := by
    intro isDigit head behind hcs hread
    cases hfirst : radix isDigit head behind with
    | some r =>
      rw [hfirst] at hread
      exact hradix hcs (hfirst.trans hread)
    | none =>
      rw [hfirst] at hread
      exact hdecimal hread
  split at h
  next behind =>
    have hrun := digitRun_text Char.isDigit behind
    split at h
    · cases h
    next places more _ heq =>
      have hexponent := exponentPart_text more
      rcases hpart : exponentPart more with ⟨e, rest'⟩
      rw [heq] at hrun
      rw [hpart] at h hexponent
      cases h
      rw [List.append_assoc, hexponent, List.cons_append, hrun]
  · split at h
    · exact hor rfl h
    · split at h
      · exact hor rfl h
      · split at h
        · exact hor rfl h
        · exact hdecimal h
  · exact hdecimal h

theorem escapeAt?_text {cs escape rest : List Char} (h : escapeAt? cs = some (escape, rest)) :
    cs = escape ++ rest := by
  unfold escapeAt? at h
  split at h
  · exact unicodeEscapeAt?_text h
  · split at h
    · cases h
      rfl
    · cases h
  · cases h
    rfl
  · split at h
    · cases h
    · split at h
      next c behind _ _ _ _ _ =>
        cases h
        have hprefix : (behind.take 2).takeWhile isOctalDigit <+: behind :=
          (List.takeWhile_prefix _).trans (List.take_prefix _ _)
        rw [List.cons_append, List.cons_append, List.prefix_iff_eq_append.mp hprefix]
      · cases h
        rfl
  · cases h

theorem stringTail_text {quote : Char} {n : Nat} {cs inner rest : List Char}
    (h : stringTail quote n cs = some (inner, rest)) : cs = inner ++ quote :: rest := by
  induction n generalizing cs inner rest with
  | zero => cases h
  | succ n ih =>
    cases cs with
    | nil => cases h
    | cons c cs =>
      simp only [stringTail] at h
      split at h
      next hquote =>
        cases h
        rw [List.nil_append, eq_of_beq hquote]
      next =>
        split at h
        · cases h
        · split at h
          · obtain ⟨⟨escape, behind⟩, hescape, h⟩ := Option.bind_eq_some_iff.mp h
            obtain ⟨⟨more, rest'⟩, hmore, h⟩ := Option.bind_eq_some_iff.mp h
            cases h
            have hbehind := ih hmore
            dsimp only at hbehind ⊢
            rw [escapeAt?_text hescape, hbehind, List.append_assoc]
          · obtain ⟨⟨more, rest'⟩, hmore, h⟩ := Option.bind_eq_some_iff.mp h
            cases h
            rw [ih hmore, List.cons_append]

theorem after?_text {text cs rest : List Char} (h : after? text cs = some rest) : cs = text ++ rest := by
  fun_induction after? text cs
  case case1 =>
    cases h
    rfl
  case case3 heq ih => rw [eq_of_beq heq, List.cons_append, ← ih h]
  all_goals cases h

/-- What a text starts with, its beginning up to another kind of character starts with as well. -/
theorem after?_takeWhile {p : Char → Bool} {text cs : List Char} (htext : text.all p = true)
    (h : (after? text cs).isSome) : (after? text (cs.takeWhile p)).isSome := by
  fun_induction after? text cs
  case case1 => exact h
  case case3 heq ih =>
    rw [List.all_cons, Bool.and_eq_true, eq_of_beq heq] at htext
    simpa [after?, htext.1, eq_of_beq heq] using ih htext.2 h
  all_goals cases h

theorem markAt?_text {cs rest : List Char} {text : String} (h : markAt? cs = some (text, rest)) :
    cs = text.toList ++ rest := by
  unfold markAt? at h
  split at h
  · split at h
    · cases h
      rfl
    · cases h
      rfl
  · obtain ⟨m, -, hm⟩ := List.exists_of_findSome?_eq_some h
    obtain ⟨rest', hafter, heq⟩ := Option.map_eq_some_iff.mp hm
    cases heq
    exact after?_text hafter

/-- The text of a token. -/
def Token.text : Token → List Char
  | word text | privateName text | number text | mark text => text.toList
  | string quote inner => quote :: inner ++ [quote]
  | endOfInput | unknown => []

/-- A token is a text at the beginning of the source. -/
theorem tokenAt_text {cs rest : List Char} {t : Token} (h : tokenAt cs = (t, rest)) (ht : t ≠ .unknown) :
    cs = t.text ++ rest ∧ t.byteLength = byteLength t.text := by
  unfold tokenAt at h
  split at h
  · cases h
    exact ⟨rfl, rfl⟩
  next c behind =>
    split at h
    next hquote =>
      split at h
      next inner more htail =>
        cases h
        have hsize : c.utf8Size = 1 := by
          simp only [Bool.or_eq_true, beq_iff_eq] at hquote
          rcases hquote with rfl | rfl <;> decide
        refine ⟨by simp [Token.text, stringTail_text htail], ?_⟩
        simp only [Token.text, Token.byteLength, byteLength_append, byteLength_cons, byteLength_nil, hsize]
        omega
      next =>
        cases h
        exact absurd rfl ht
    next =>
      split at h
      next hhash =>
        split at h
        next text more hname =>
          cases h
          refine ⟨?_, (byteLength_toList _).symm⟩
          rw [nameAt?_text hname, eq_of_beq hhash, Token.text, String.toList_ofList, List.cons_append]
        next =>
          cases h
          exact absurd rfl ht
      next =>
        split at h
        next text more hname =>
          cases h
          refine ⟨?_, (byteLength_toList _).symm⟩
          rw [Token.text, String.toList_ofList]
          exact nameAt?_text hname
        next =>
          split at h
          next text more hnumber =>
            cases h
            refine ⟨?_, (byteLength_toList _).symm⟩
            rw [Token.text, String.toList_ofList]
            exact numberAt?_text hnumber
          next =>
            split at h
            next text more hmark =>
              cases h
              exact ⟨markAt?_text hmark, (byteLength_toList text).symm⟩
            next =>
              cases h
              exact absurd rfl ht

theorem unicodeEscapeAt?_ne_nil {cs escape rest : List Char}
    (h : unicodeEscapeAt? cs = some (escape, rest)) : escape ≠ [] := by
  rintro rfl
  unfold unicodeEscapeAt? at h
  split at h
  · dsimp only at h
    split at h <;> simp at h
  · simp at h
  · cases h

theorem nameAt?_ne_nil {cs text rest : List Char} (h : nameAt? cs = some (text, rest)) : text ≠ [] := by
  cases cs with
  | nil => cases h
  | cons c cs =>
    have hstart : (isNameStart c || (unicodeEscapeAt? (c :: cs)).isSome) = true := by
      cases hstart : (isNameStart c || (unicodeEscapeAt? (c :: cs)).isSome) with
      | true => rfl
      | false => simp [nameAt?, hstart] at h
    have htext : text = (nameParts (cs.length + 1) (c :: cs)).1 := by
      simp [nameAt?, hstart] at h
      rw [h]
    rw [htext, nameParts]
    by_cases hpart : isNamePart c = true
    · simp [hpart]
    · simp only [isNameStart, hpart, Bool.false_and, Bool.false_or, Option.isSome_iff_exists] at hstart
      obtain ⟨⟨escape, more⟩, hescape⟩ := hstart
      have hne := unicodeEscapeAt?_ne_nil hescape
      simp [hpart, hescape, hne]

theorem tokenAt_eq_endOfInput {cs rest : List Char} (h : tokenAt cs = (.endOfInput, rest)) : cs = [] := by
  unfold tokenAt at h
  split at h
  · rfl
  · repeat' split at h
    all_goals cases h

theorem tokenAt_eq_word {cs rest : List Char} {text : String} (h : tokenAt cs = (.word text, rest)) :
    text ≠ "" := by
  unfold tokenAt at h
  split at h
  · cases h
  · split at h
    · split at h <;> cases h
    · split at h
      · split at h <;> cases h
      · split at h
        next hname =>
          cases h
          simpa using nameAt?_ne_nil hname
        next =>
          split at h
          · cases h
          · split at h <;> cases h

/-! ## Literals that are not made of tokens -/

theorem regexClass_text {cs inside rest : List Char} (h : regexClass cs = some (inside, rest)) :
    cs = inside ++ rest := by
  fun_induction regexClass cs generalizing inside rest
  case case2 =>
    cases h
    rfl
  case case4 ih =>
    obtain ⟨⟨more, behind⟩, hmore, hmade⟩ := Option.map_eq_some_iff.mp h
    cases hmade
    rw [ih hmore, List.cons_append, List.cons_append]
  case case6 ih =>
    obtain ⟨⟨more, behind⟩, hmore, hmade⟩ := Option.map_eq_some_iff.mp h
    cases hmade
    rw [ih hmore, List.cons_append]
  all_goals cases h

theorem regexPattern_text {n : Nat} {cs pattern rest : List Char}
    (h : regexPattern n cs = some (pattern, rest)) : cs = pattern ++ '/' :: rest := by
  fun_induction regexPattern n cs generalizing pattern rest
  case case3 =>
    cases h
    rfl
  case case5 ih =>
    obtain ⟨⟨more, behind⟩, hmore, hmade⟩ := Option.map_eq_some_iff.mp h
    cases hmade
    rw [ih hmore, List.cons_append, List.cons_append]
  case case6 ih =>
    obtain ⟨⟨inside, behind⟩, hinside, h⟩ := Option.bind_eq_some_iff.mp h
    obtain ⟨⟨more, behind'⟩, hmore, h⟩ := Option.bind_eq_some_iff.mp h
    cases h
    have hbehind := ih _ hmore
    rw [regexClass_text hinside, hbehind]
    simp only [List.append_assoc, List.cons_append]
  case case8 ih =>
    obtain ⟨⟨more, behind⟩, hmore, hmade⟩ := Option.map_eq_some_iff.mp h
    cases hmade
    rw [ih hmore, List.cons_append]
  all_goals cases h

theorem templateChunk_text {n : Nat} {cs chunk rest : List Char} {ends : Bool}
    (h : templateChunk n cs = some (chunk, ends, rest)) :
    cs = chunk ++ (if ends then ['\x60'] else ['$', '\x7b']) ++ rest := by
  fun_induction templateChunk n cs generalizing chunk rest
  case case3 | case4 =>
    cases h
    rfl
  case case5 ih =>
    obtain ⟨⟨escape, behind⟩, hescape, h⟩ := Option.bind_eq_some_iff.mp h
    obtain ⟨⟨more, ends, behind'⟩, hmore, h⟩ := Option.bind_eq_some_iff.mp h
    cases h
    have hbehind := ih _ hmore
    rw [escapeAt?_text hescape, hbehind]
    simp only [List.append_assoc]
  case case6 ih =>
    obtain ⟨⟨more, ends, behind⟩, hmore, h⟩ := Option.bind_eq_some_iff.mp h
    cases h
    rw [ih hmore]
    simp only [List.append_assoc, List.cons_append]
  all_goals cases h

/-! ## Scanning a source -/

/-- Text that a parser of markup elements takes at once: a mark, the text behind a mark, a quoted
value, or a name. -/
inductive MarkupText : List Char → Prop
  | mark {c : Char} (h : c ∈ ['<', '>', '/']) : MarkupText [c]
  | text {c : Char} {cs : List Char} (h : c ∈ ['>', '\x7d'])
      (hcs : ∀ d ∈ cs, "<>\x7b\x7d".toList.contains d = false) : MarkupText (c :: cs)
  | quoted {q : Char} {cs : List Char} (h : q ∈ ['"', '\x27']) (hcs : q ∉ cs) : MarkupText (q :: cs ++ [q])
  | name {cs : List Char} (h : ∀ c ∈ cs, (isNamePart c || "-.:".toList.contains c) = true) : MarkupText cs

/-- What a parser takes of a source at once, and the source behind it. -/
inductive Stretch : List Char → List Char → Prop
  /-- A token. -/
  | token {text rest : List Char} {t : Token} (h : tokenAt (text ++ rest) = (t, rest))
      (ht : t ≠ .endOfInput ∧ t ≠ .unknown) : Stretch text rest
  /-- A regular expression with its flags. -/
  | regex {pattern flags rest : List Char} {n : Nat}
      (h : regexPattern n (pattern ++ '/' :: (flags ++ rest)) = some (pattern, flags ++ rest))
      (hflags : ∀ c ∈ flags, ('a' ≤ c && c ≤ 'z') = true) : Stretch ('/' :: pattern ++ '/' :: flags) rest
  /-- A chunk of a template with the marks around it. -/
  | chunk {mark : Char} {chunk rest : List Char} {n : Nat} {ends : Bool} (hmark : mark ∈ ['\x60', '\x7d'])
      (h : templateChunk n (chunk ++ (if ends then ['\x60'] else ['$', '\x7b']) ++ rest) = some (chunk, ends, rest)) :
      Stretch (mark :: chunk ++ if ends then ['\x60'] else ['$', '\x7b']) rest
  /-- A piece of a markup element. -/
  | markup {text rest : List Char} (h : MarkupText text) : Stretch text rest
  /-- A line that begins in the manner of a comment in markup. -/
  | line {text rest : List Char} (h : (after? "<!--".toList text).isSome ∨ (after? "-->".toList text).isSome)
      (hline : ∀ c ∈ text, endsLine c = false) : Stretch text rest

/-- Going through a source gap by gap, one comes to a place behind a gap, past some comments. A line at
the beginning that names an interpreter counts as a comment. -/
inductive Scanned (source : List Char) : List String → List Char → Prop
  | start {comments : List String} {here : List Char} (h : Gapped source comments here) :
      Scanned source comments here
  | interpreter {lead comments : List String} {line rest here : List Char}
      (h : Gapped source lead (line ++ rest)) (hline : (after? "#!".toList line).isSome ∧ '\n' ∉ line)
      (hgap : Gapped rest comments here) : Scanned source (lead ++ String.ofList line :: comments) here
  | step {passed comments : List String} {text rest here : List Char}
      (h : Scanned source passed (text ++ rest)) (hstretch : Stretch text rest)
      (hgap : Gapped rest comments here) : Scanned source (passed ++ comments) here

/-- The text of a source behind its byte order mark. -/
def withoutMark : List Char → List Char
  | '\ufeff' :: cs => cs
  | cs => cs

/-- A source has a text at a byte offset. -/
def Spelled (source : String) (position : Nat) (text : String) : Prop :=
  ∃ before after, source = before ++ text ++ after ∧ before.utf8ByteSize = position

/-! ## States in a source -/

/-- A lexeme is what stands at its place in a source. -/
structure Lexeme.Placed (source : String) (l : Lexeme) : Prop where
  here : ∃ before, source.toList = before ++ l.here ∧ l.start = byteLength before
  token : l.token = .unknown ∨ tokenAt l.here = (l.token, l.rest)
  stop : l.stop = l.start + l.token.byteLength

/-- All comments that a parser in some state has come to. -/
def State.met (s : State) : List String := s.passed.reverse ++ commentsOf s.next.gap

/-- The look-ahead of a state is what stands at its place in the source, and the comments that the
state has come to are those before it. Behind a comment without an end there is nothing. -/
structure State.Stands (source : String) (s : State) : Prop where
  placed : s.next.Placed source
  scanned : (s.next.here = [] ∧ s.next.token = .unknown) ∨
    Scanned (withoutMark source.toList) s.met s.next.here

/-- The state of a parser that goes on from a given place of the source. -/
def State.resumed (s : State) (position : Nat) (source : List Char) : State :=
  { next := Lexeme.next position source, last := position
    loose := (commentsOf s.next.gap).reverse ++ s.loose
    passed := (commentsOf s.next.gap).reverse ++ s.passed }

theorem State.met_resumed (s : State) (position : Nat) (source : List Char) :
    (s.resumed position source).met = s.met ++ commentsOf (Lexeme.next position source).gap := by
  simp [met, resumed]

section

variable {source : String} {s : State} {position : Nat} {text rest cs : List Char}

theorem Lexeme.le_start_next (position : Nat) (cs : List Char) :
    position ≤ (Lexeme.next position cs).start := by
  obtain ⟨text, -, hstop⟩ := takes_gapFrom .between position cs
  exact Nat.le_trans (Nat.le_add_right _ _) (Nat.le_of_eq hstop.symm)

/-- A lexeme is read behind a gap, unless a comment without an end has left nothing. -/
theorem Lexeme.next_cases (position : Nat) (cs : List Char) :
    ((Lexeme.next position cs).here = [] ∧ (Lexeme.next position cs).token = .unknown) ∨
      (Gapped cs (commentsOf (Lexeme.next position cs).gap) (Lexeme.next position cs).here ∧
        tokenAt (Lexeme.next position cs).here =
          ((Lexeme.next position cs).token, (Lexeme.next position cs).rest)) := by
  unfold Lexeme.next
  dsimp only
  split
  next hunclosed => exact .inl ⟨rest_of_unclosed hunclosed, rfl⟩
  next hclosed => exact .inr ⟨⟨position, by simpa using hclosed, rfl, rfl⟩, rfl⟩

theorem Lexeme.placed_next (before : List Char) (hsource : source.toList = before ++ cs)
    (hposition : position = byteLength before) :
    (Lexeme.next position cs).Placed source where
  here := by
    obtain ⟨text, hcs, hstop⟩ := takes_gapFrom .between position cs
    refine ⟨before ++ text, ?_, ?_⟩
    · rw [hsource, List.append_assoc]
      exact congrArg (before ++ ·) hcs
    · rw [byteLength_append, ← hposition]
      exact hstop
  token := (Lexeme.next_cases position cs).imp And.right And.right
  stop := rfl

/-- A parser that takes a stretch stands behind it. -/
theorem State.Stands.resumed (hs : s.Stands source) (hhere : s.next.here = text ++ rest)
    (hstretch : Stretch text rest) (hposition : position = s.next.start + byteLength text)
    (hthere : s.next.here ≠ [] ∨ s.next.token ≠ .unknown) : (s.resumed position rest).Stands source where
  placed := by
    obtain ⟨before, hsource, hstart⟩ := hs.placed.here
    refine Lexeme.placed_next (before ++ text) ?_ ?_
    · rw [hsource, hhere, List.append_assoc]
    · rw [hposition, hstart, byteLength_append]
  scanned := by
    have hscanned : Scanned (withoutMark source.toList) s.met s.next.here := by
      rcases hs.scanned with ⟨hnil, hunknown⟩ | hscanned
      · rcases hthere with hthere | hthere
        · exact absurd hnil hthere
        · exact absurd hunknown hthere
      · exact hscanned
    rw [hhere] at hscanned
    rw [met_resumed]
    exact (Lexeme.next_cases position rest).imp id fun h => hscanned.step hstretch h.1

/-- A parser that takes the token of look-ahead stands behind it. -/
theorem State.Stands.advanced (hs : s.Stands source)
    (htoken : s.next.token ≠ .endOfInput ∧ s.next.token ≠ .unknown) :
    (s.resumed s.next.stop s.next.rest).Stands source := by
  have hread := hs.placed.token.resolve_left htoken.2
  obtain ⟨hhere, hlength⟩ := tokenAt_text hread htoken.2
  refine hs.resumed hhere (.token (hhere ▸ hread) htoken) ?_ (.inr htoken.2)
  rw [hs.placed.stop, hlength]

/-- Only the comments in front of the look-ahead may be moved about. -/
theorem State.Stands.congr {t : State} (hs : s.Stands source)
    (hnext : { t.next with gap := [] } = { s.next with gap := [] }) (hmet : t.met = s.met) : t.Stands source := by
  simp only [Lexeme.mk.injEq, true_and] at hnext
  obtain ⟨htoken, hstart, hstop, hhere, hrest⟩ := hnext
  refine ⟨⟨?_, ?_, ?_⟩, ?_⟩
  · rw [hhere, hstart]
    exact hs.placed.here
  · rw [hhere, htoken, hrest]
    exact hs.placed.token
  · rw [hstop, hstart, htoken]
    exact hs.placed.stop
  · rw [hhere, htoken, hmet]
    exact hs.scanned

/-- The text of the look-ahead is what stands at its place. -/
theorem Lexeme.Placed.here_eq {l : Lexeme} (hl : l.Placed source) (htoken : l.token ≠ .unknown) :
    l.here = l.token.text ++ l.rest :=
  (tokenAt_text (hl.token.resolve_left htoken) htoken).1

/-- A word of look-ahead is spelled at its place, and it is not empty. -/
theorem Lexeme.Placed.word {l : Lexeme} {word : String} (hl : l.Placed source) (htoken : l.token = .word word) :
    Spelled source l.start word ∧ l.start < l.stop := by
  have hread := hl.token.resolve_left (by rw [htoken]; nofun)
  rw [htoken] at hread
  obtain ⟨before, hsource, hstart⟩ := hl.here
  refine ⟨⟨String.ofList before, String.ofList l.rest, ?_, ?_⟩, ?_⟩
  · rw [← String.toList_inj, hsource, (tokenAt_text hread nofun).1]
    simp only [Token.text, String.toList_append, String.toList_ofList, List.append_assoc]
  · rw [utf8ByteSize_ofList, hstart]
  · have hpos : word.utf8ByteSize ≠ 0 := fun hzero =>
      tokenAt_eq_word hread (String.utf8ByteSize_eq_zero_iff.mp hzero)
    rw [hl.stop, htoken, Token.byteLength]
    omega

end

/-! ## Texts by their characters -/

/-- The script that some characters spell. -/
def scriptOf? (cs : List Char) : Option Script :=
  let offset := if cs.head? = some '\ufeff' then 3 else 0
  let cs := if cs.head? = some '\ufeff' then cs.tail else cs
  (script (grammar (32 * (cs.length + 8)))).run'
    { next := Lexeme.next offset cs, last := offset, loose := [] }

theorem parse?_eq (text : String) : parse? text = scriptOf? text.toList := by
  unfold parse? scriptOf?
  split
  next offset cs h =>
  split at h
  next rest hmarked =>
    cases h
    rw [hmarked]
    rfl
  next hmarked =>
    cases h
    have hhead : text.toList.head? ≠ some '\ufeff' := by
      intro hhead
      obtain ⟨rest, hrest⟩ := List.head?_eq_some_iff.mp hhead
      exact hmarked rest hrest
    rw [if_neg hhead, if_neg hhead]

end Unminify.Grammar

/-- What is read of a text depends on its characters only, and on these it can be computed quickly. -/
theorem Unminify.Program.toOption_read (text : String) :
    (read text).toOption = (Grammar.scriptOf? text.toList).bind fun script =>
      script.reading.toOption.map Program.mk := by
  unfold read
  rw [Grammar.parse?_eq]
  generalize Grammar.scriptOf? text.toList = script
  obtain - | ⟨reading, ends⟩ := script
  · rfl
  · cases reading <;> rfl
