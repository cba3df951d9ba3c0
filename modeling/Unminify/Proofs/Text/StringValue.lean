import Mathlib.Data.List.TakeWhile
import Unminify.Grammar.Token
import Unminify.Text.Quoted

/-!
# The value of a quoted string

A string literal stands for a sequence of UTF-16 code units. `value?` reads them off the text between
the quotes by the rules of the language, escape by escape, or finds that the text is not the inside of
a literal with that quote.

An escape may be followed by characters that would have become part of it: a third octal digit, the
line feed behind a carriage return. Bringing a literal into double quotes puts in and takes out
backslashes only, always next to a quote, and neither of the two continues an escape. So every escape
ends where it did (`escape?_redelimit`), and the value stays (`value?_content`).
-/

namespace Unminify.Quoted

open Character

/-! ## Code units -/

/-- The UTF-16 code units of a code point. -/
def codeUnits (n : Nat) : List UInt16 :=
  if n < 0x10000 then [.ofNat n]
  else [.ofNat (0xD800 + (n - 0x10000) / 0x400), .ofNat (0xDC00 + (n - 0x10000) % 0x400)]

/-- The number that some digits denote. Letters of either case are digits above nine. -/
def numberIn (radix : Nat) (digits : List Char) : Nat :=
  digits.foldl (fun n c => radix * n + if c.isDigit then c.toNat - 48 else c.toLower.toNat - 87) 0

/-- What the escape of a single character stands for. -/
def single (c : Char) : List UInt16 :=
  match c with
  | 'b' => [8]
  | 't' => [9]
  | 'n' => [10]
  | 'v' => [11]
  | 'f' => [12]
  | 'r' => [13]
  | c => codeUnits c.toNat

/-! ## Escapes

Each function gets what stands behind the characters that it is named for, and gives the code units
and what stands behind the escape. -/

/-- Two digits behind `\x`. -/
def hexEscape? : List Char → Option (List UInt16 × List Char)
  | a :: b :: rest =>
    if [a, b].all isHexDigit then some ([.ofNat (numberIn 16 [a, b])], rest) else none
  | _ => none

/-- Four digits behind `\u`, or a code point in braces. -/
def unicodeEscape? : List Char → Option (List UInt16 × List Char)
  | '\x7b' :: cs =>
    let digits := cs.takeWhile isHexDigit
    match cs.dropWhile isHexDigit with
    | '\x7d' :: rest =>
      if digits ≠ [] ∧ numberIn 16 digits ≤ 0x10FFFF then some (codeUnits (numberIn 16 digits), rest)
      else none
    | _ => none
  | a :: b :: c :: d :: rest =>
    if [a, b, c, d].all isHexDigit then some ([.ofNat (numberIn 16 [a, b, c, d])], rest) else none
  | _ => none

/-- At most `n` of the characters of a kind that stand next. -/
def upTo (n : Nat) (p : Char → Bool) (cs : List Char) : List Char := (cs.takeWhile p).take n

/-- How many more digits an octal escape may have, given its first one; its value is below 256. -/
def octalRoom (first : Char) : Nat := if first ≤ '3' then 2 else 1

/-- The escape behind a backslash. An octal escape has as many digits as it may have. A line end
behind a backslash stands for nothing. -/
def escape? : List Char → Option (List UInt16 × List Char)
  | [] => none
  | c :: rest =>
    if c = 'x' then hexEscape? rest
    else if c = 'u' then unicodeEscape? rest
    else if isOctalDigit c then
      let more := upTo (octalRoom c) isOctalDigit rest
      some ([.ofNat (numberIn 8 (c :: more))], rest.drop more.length)
    else if endsLine c then
      let more := upTo 1 (fun d => c == '\r' && d == '\n') rest
      some ([], rest.drop more.length)
    else some (single c, rest)

/-- Characters that can only stand behind the first character of an escape: no backslashes and no
quotes. -/
def Plain (cs : List Char) : Prop := ∀ c ∈ cs, c ≠ '\\' ∧ c ≠ '"' ∧ c ≠ '\x27'

theorem plain_of_all {p : Char → Bool} (hp : p '\\' = false ∧ p '"' = false ∧ p '\x27' = false)
    {cs : List Char} (h : ∀ c ∈ cs, p c = true) : Plain cs := by
  intro c hc
  refine ⟨?_, ?_, ?_⟩ <;> rintro rfl <;> simp_all

theorem upTo_append_drop (n : Nat) (p : Char → Bool) (cs : List Char) :
    upTo n p cs ++ cs.drop (upTo n p cs).length = cs :=
  List.prefix_iff_eq_append.mp ((List.take_prefix _ _).trans (List.takeWhile_prefix _))

theorem all_upTo {n : Nat} {p : Char → Bool} {cs : List Char} : ∀ c ∈ upTo n p cs, p c = true :=
  fun _ hc => List.mem_takeWhile_imp (List.mem_of_mem_take hc)

/-! ### The extent of an escape -/

theorem hexEscape?_eq_some {cs rest : List Char} {us : List UInt16} (h : hexEscape? cs = some (us, rest)) :
    ∃ a b, cs = a :: b :: rest ∧ [a, b].all isHexDigit = true ∧ us = [.ofNat (numberIn 16 [a, b])] := by
  unfold hexEscape? at h
  split at h
  next a b rest' =>
    split at h
    next hdigits =>
      cases h
      exact ⟨a, b, rfl, hdigits, rfl⟩
    next => cases h
  next => cases h

/-- The two spellings of a unicode escape. -/
theorem unicodeEscape?_eq_some {cs rest : List Char} {us : List UInt16}
    (h : unicodeEscape? cs = some (us, rest)) :
    (∃ digits, cs = '\x7b' :: (digits ++ '\x7d' :: rest) ∧ (∀ c ∈ digits, isHexDigit c = true) ∧
      (digits ≠ [] ∧ numberIn 16 digits ≤ 0x10FFFF) ∧ us = codeUnits (numberIn 16 digits)) ∨
    ∃ a b c d, cs = a :: b :: c :: d :: rest ∧ a ≠ '\x7b' ∧ [a, b, c, d].all isHexDigit = true ∧
      us = [.ofNat (numberIn 16 [a, b, c, d])] := by
  unfold unicodeEscape? at h
  split at h
  next cs =>
    dsimp only at h
    split at h
    next rest' hrest =>
      split at h
      next hvalue =>
        cases h
        refine .inl ⟨cs.takeWhile isHexDigit, ?_, fun c hc => List.mem_takeWhile_imp hc, hvalue, rfl⟩
        rw [← hrest, List.takeWhile_append_dropWhile]
      next => cases h
    next => cases h
  next a b c d rest' hbrace =>
    split at h
    next hdigits =>
      cases h
      exact .inr ⟨a, b, c, d, rfl, hbrace, hdigits, rfl⟩
    next => cases h
  next => cases h

/-- The digits of a code point end at the brace. -/
theorem span_digits {digits : List Char} (hdigits : ∀ c ∈ digits, isHexDigit c = true) (rest : List Char) :
    (digits ++ '\x7d' :: rest).takeWhile isHexDigit = digits ∧
      (digits ++ '\x7d' :: rest).dropWhile isHexDigit = '\x7d' :: rest := by
  rw [List.takeWhile_append_of_pos hdigits, List.dropWhile_append_of_pos hdigits]
  exact ⟨List.append_nil digits, rfl⟩

theorem unicodeEscape?_braces {digits : List Char} (hdigits : ∀ c ∈ digits, isHexDigit c = true)
    (hvalue : digits ≠ [] ∧ numberIn 16 digits ≤ 0x10FFFF) (rest : List Char) :
    unicodeEscape? ('\x7b' :: (digits ++ '\x7d' :: rest)) = some (codeUnits (numberIn 16 digits), rest) := by
  obtain ⟨htaken, hleft⟩ := span_digits hdigits rest
  simp only [unicodeEscape?, htaken, hleft]
  exact if_pos hvalue

theorem hexEscape?_eq {cs rest : List Char} {us : List UInt16} (h : hexEscape? cs = some (us, rest)) :
    ∃ digits, cs = digits ++ rest ∧ Plain digits := by
  obtain ⟨a, b, rfl, hdigits, -⟩ := hexEscape?_eq_some h
  exact ⟨[a, b], rfl, plain_of_all (by decide) (List.all_eq_true.mp hdigits)⟩

theorem unicodeEscape?_eq {cs rest : List Char} {us : List UInt16}
    (h : unicodeEscape? cs = some (us, rest)) : ∃ digits, cs = digits ++ rest ∧ Plain digits := by
  obtain ⟨digits, rfl, hdigits, -⟩ | ⟨a, b, c, d, rfl, -, hdigits, -⟩ := unicodeEscape?_eq_some h
  · refine ⟨'\x7b' :: digits ++ ['\x7d'], by simp, ?_⟩
    refine plain_of_all (p := fun c => isHexDigit c || c == '\x7b' || c == '\x7d') (by decide) ?_
    intro c hc
    simp only [List.cons_append, List.mem_cons, List.mem_append, List.not_mem_nil, or_false] at hc
    rcases hc with rfl | hc | rfl
    · decide
    · rw [hdigits c hc]
      rfl
    · decide
  · exact ⟨[a, b, c, d], rfl, plain_of_all (by decide) (List.all_eq_true.mp hdigits)⟩

/-- An escape takes a character and then only plain ones. -/
theorem escape?_eq {cs rest : List Char} {us : List UInt16} (h : escape? cs = some (us, rest)) :
    ∃ c more, cs = c :: (more ++ rest) ∧ Plain more := by
  cases cs with
  | nil => cases h
  | cons c cs =>
    refine ⟨c, ?_⟩
    simp only [List.cons.injEq, true_and]
    simp only [escape?] at h
    split_ifs at h
    · exact hexEscape?_eq h
    · exact unicodeEscape?_eq h
    · cases h
      exact ⟨_, (upTo_append_drop _ _ cs).symm, plain_of_all (by decide) all_upTo⟩
    · cases h
      exact ⟨_, (upTo_append_drop _ _ cs).symm, plain_of_all (by simp) all_upTo⟩
    · cases h
      exact ⟨[], rfl, by simp [Plain]⟩

theorem length_lt_of_escape? {cs rest : List Char} {us : List UInt16}
    (h : escape? cs = some (us, rest)) : rest.length < cs.length := by
  obtain ⟨c, more, rfl, -⟩ := escape?_eq h
  rw [List.length_cons, List.length_append]
  omega

/-! ## Literals -/

/-- The code units that the inside of a literal stands for, given its quote. There are none if the
inside holds a line end or the quote itself without a backslash, or a backslash without an escape. -/
def value? (quote : Char) (cs : List Char) : Option (List UInt16) :=
  match cs with
  | [] => some []
  | c :: cs =>
    if c = '\\' then
      match _h : escape? cs with
      | some (us, rest) => (value? quote rest).map (us ++ ·)
      | none => none
    else if c = quote ∨ c = '\n' ∨ c = '\r' then none
    else (value? quote cs).map (codeUnits c.toNat ++ ·)
termination_by cs.length
decreasing_by
  · have := length_lt_of_escape? _h
    simp only [List.length_cons]
    omega
  · simp only [List.length_cons]
    omega

section

variable {quote c : Char} {cs rest : List Char} {us : List UInt16}

theorem value?_nil (quote : Char) : value? quote [] = some [] := by
  rw [value?]

theorem value?_escape (h : escape? cs = some (us, rest)) :
    value? quote ('\\' :: cs) = (value? quote rest).map (us ++ ·) := by
  rw [value?, if_pos rfl]
  split
  next us' rest' h' =>
    obtain ⟨rfl, rfl⟩ := Prod.mk.inj (Option.some.inj (h'.symm.trans h))
    rfl
  next h' => cases h'.symm.trans h

theorem value?_char (hc : c ≠ '\\') (hquote : c ≠ quote) (hend : c ≠ '\n' ∧ c ≠ '\r') :
    value? quote (c :: cs) = (value? quote cs).map (codeUnits c.toNat ++ ·) := by
  rw [value?, if_neg hc, if_neg]
  simp [hquote, hend]

end

/-! ## Into double quotes -/

section

variable {c : Char} {cs rest : List Char} {us : List UInt16}

theorem redelimit_escape (hc : c ≠ '\x27') (cs : List Char) :
    redelimit ('\\' :: c :: cs) = '\\' :: c :: redelimit cs :=
  redelimit.eq_3 c cs hc

theorem redelimit_char (hc : c ≠ '\\' ∧ c ≠ '"') (cs : List Char) :
    redelimit (c :: cs) = c :: redelimit cs := by
  rw [redelimit.eq_5] <;> grind

theorem redelimit_append (hcs : Plain cs) (rest : List Char) :
    redelimit (cs ++ rest) = cs ++ redelimit rest := by
  induction cs with
  | nil => rfl
  | cons c cs ih =>
    obtain ⟨hslash, hquote, -⟩ := hcs c List.mem_cons_self
    rw [List.cons_append, redelimit_char ⟨hslash, hquote⟩, ih fun d hd => hcs d (List.mem_cons_of_mem _ hd),
      List.cons_append]

/-- What is put in and taken out stands next to a quote, so it neither continues nor ends a run of
other characters. -/
theorem takeWhile_redelimit {p : Char → Bool} (hp : p '\\' = false ∧ p '"' = false ∧ p '\x27' = false)
    (cs : List Char) : (redelimit cs).takeWhile p = cs.takeWhile p := by
  fun_induction redelimit cs with
  | case1 => rfl
  | case2 rest _ => simp [hp]
  | case3 c rest _ _ => simp [hp]
  | case4 rest _ => simp [hp]
  | case5 c rest _ _ _ ih => rw [List.takeWhile_cons, List.takeWhile_cons, ih]

theorem hexEscape?_redelimit (h : hexEscape? cs = some (us, rest)) :
    hexEscape? (redelimit cs) = some (us, redelimit rest) := by
  obtain ⟨a, b, rfl, hdigits, rfl⟩ := hexEscape?_eq_some h
  have hplain : Plain [a, b] := plain_of_all (by decide) (List.all_eq_true.mp hdigits)
  rw [show a :: b :: rest = [a, b] ++ rest from rfl, redelimit_append hplain]
  exact if_pos hdigits

theorem unicodeEscape?_redelimit (h : unicodeEscape? cs = some (us, rest)) :
    unicodeEscape? (redelimit cs) = some (us, redelimit rest) := by
  obtain ⟨digits, rfl, hdigits, hvalue, rfl⟩ | ⟨a, b, c, d, rfl, hbrace, hdigits, rfl⟩ := unicodeEscape?_eq_some h
  · rw [redelimit_char (by decide), redelimit_append (plain_of_all (by decide) hdigits), redelimit_char (by decide)]
    exact unicodeEscape?_braces hdigits hvalue (redelimit rest)
  · have hplain : Plain [a, b, c, d] := plain_of_all (by decide) (List.all_eq_true.mp hdigits)
    rw [show a :: b :: c :: d :: rest = [a, b, c, d] ++ rest from rfl, redelimit_append hplain]
    exact (unicodeEscape?.eq_2 a b c d _ hbrace).trans (if_pos hdigits)

theorem upTo_redelimit {p : Char → Bool} (hp : p '\\' = false ∧ p '"' = false ∧ p '\x27' = false)
    (n : Nat) (cs : List Char) :
    upTo n p (redelimit cs) = upTo n p cs ∧
      (redelimit cs).drop (upTo n p cs).length = redelimit (cs.drop (upTo n p cs).length) := by
  have hsame : upTo n p (redelimit cs) = upTo n p cs := by
    rw [upTo, takeWhile_redelimit hp, upTo]
  have hsplit : upTo n p cs ++ (redelimit cs).drop (upTo n p cs).length =
      upTo n p cs ++ redelimit (cs.drop (upTo n p cs).length) := by
    rw [← redelimit_append (plain_of_all hp all_upTo), upTo_append_drop, ← hsame, upTo_append_drop]
  exact ⟨hsame, List.append_cancel_left hsplit⟩

/-- An escape ends where it did. -/
theorem escape?_redelimit (h : escape? (c :: cs) = some (us, rest)) :
    escape? (c :: redelimit cs) = some (us, redelimit rest) := by
  simp only [escape?] at h ⊢
  split_ifs at h ⊢
  · exact hexEscape?_redelimit h
  · exact unicodeEscape?_redelimit h
  all_goals cases h
  · obtain ⟨hsame, hdrop⟩ := upTo_redelimit (p := isOctalDigit) (by decide) (octalRoom c) cs
    rw [hsame, hdrop]
  · obtain ⟨hsame, hdrop⟩ := upTo_redelimit (p := fun d => c == '\r' && d == '\n') (by simp) 1 cs
    rw [hsame, hdrop]
  · rfl

/-- A literal in single quotes keeps its value when it is brought into double quotes. -/
theorem value?_redelimit (h : value? '\x27' cs = some us) : value? '"' (redelimit cs) = some us := by
  fun_induction value? '\x27' cs generalizing us with
  | case1 => simpa [redelimit, value?_nil] using h
  | case2 cs escaped rest hescape ih =>
    obtain ⟨units, hrest, rfl⟩ := Option.map_eq_some_iff.mp h
    obtain ⟨d, more, rfl, -⟩ := escape?_eq hescape
    by_cases hd : d = '\x27'
    · -- the backslash goes, and the quote stands for itself
      subst hd
      have hself : escape? ('\x27' :: (more ++ rest)) = some ([39], more ++ rest) := rfl
      obtain ⟨rfl, hmore⟩ := Prod.mk.inj (Option.some.inj (hself.symm.trans hescape))
      rw [hmore, redelimit.eq_2, value?_char (by decide) (by decide) (by decide), ih hrest]
      rfl
    · rw [redelimit_escape hd, value?_escape (escape?_redelimit hescape), ih hrest]
      rfl
  | case3 => cases h
  | case4 => cases h
  | case5 d cs hslash hplain ih =>
    obtain ⟨units, hrest, rfl⟩ := Option.map_eq_some_iff.mp h
    simp only [not_or] at hplain
    by_cases hd : d = '"'
    · -- a backslash comes, and the escape stands for the quote
      subst hd
      have hescape : escape? ('"' :: redelimit cs) = some ([34], redelimit cs) := rfl
      rw [redelimit.eq_4, value?_escape hescape, ih hrest]
      rfl
    · rw [redelimit_char ⟨hslash, hd⟩, value?_char hslash hd hplain.2, ih hrest]
      rfl

end

/-! ## The ends of a literal -/

/-- Every quote has a backslash in front that is not itself escaped, and no such backslash stands at
the end. -/
def isClosed (quote : Char) : List Char → Bool
  | [] => true
  | ['\\'] => false
  | '\\' :: _ :: cs => isClosed quote cs
  | c :: cs => c != quote && isClosed quote cs

section

variable {quote c : Char} {cs rest : List Char} {us : List UInt16}

theorem isClosed_append (hquote : quote = '"' ∨ quote = '\x27') (hcs : Plain cs) (rest : List Char) :
    isClosed quote (cs ++ rest) = isClosed quote rest := by
  induction cs with
  | nil => rfl
  | cons c cs ih =>
    obtain ⟨hslash, hdouble, hsingle⟩ := hcs c List.mem_cons_self
    have hne : (c != quote) = true := by
      rcases hquote with rfl | rfl <;> simpa
    rw [List.cons_append, isClosed.eq_4 _ _ _ (fun h _ => hslash h) (fun _ _ h _ => hslash h), hne,
      Bool.true_and, ih fun d hd => hcs d (List.mem_cons_of_mem _ hd)]

theorem isClosed_of_value? (hquote : quote = '"' ∨ quote = '\x27') (h : value? quote cs = some us) :
    isClosed quote cs = true := by
  fun_induction value? quote cs generalizing us with
  | case1 => rfl
  | case2 cs escaped rest hescape ih =>
    obtain ⟨units, hrest, -⟩ := Option.map_eq_some_iff.mp h
    obtain ⟨d, more, rfl, hplain⟩ := escape?_eq hescape
    rw [isClosed, isClosed_append hquote hplain, ih hrest]
  | case3 => cases h
  | case4 => cases h
  | case5 d cs hslash hplain ih =>
    obtain ⟨units, hrest, -⟩ := Option.map_eq_some_iff.mp h
    simp only [not_or] at hplain
    rw [isClosed.eq_4 _ _ _ (fun h _ => hslash h) (fun _ _ h _ => hslash h), ih hrest, Bool.and_true]
    exact bne_iff_ne.mpr hplain.1

end

end Unminify.Quoted
