import Unminify.Proofs.Grammar.Lexing
import Unminify.Proofs.Text.StringValue

/-!
# Literals as tokens

The lexer finds the end of a string literal by its quotes and backslashes and does not look at values.
It takes every literal that has a value as one token (`tokenAt_quoted`), whatever stands behind it.

So the text that is kept of a string literal can be put between double quotes: it is a literal there,
with the value it had, and reading it again keeps the same text (`value?_content`).
-/

namespace Unminify.Quoted

open Character Grammar

section

variable {quote c : Char} {cs rest : List Char} {us : List UInt16}

theorem escapeAt?_char (hc : c ≠ 'x' ∧ c ≠ 'u') (hbreak : ¬(c = '\r' ∧ cs.head? = some '\n')) :
    escapeAt? ('\\' :: c :: cs) =
      if isOctalDigit c then some ('\\' :: c :: upTo 2 isOctalDigit cs, cs.drop (upTo 2 isOctalDigit cs).length)
      else some (['\\', c], cs) := by
  have hx : (c == 'x') = false := by simpa using hc.1
  rw [escapeAt?.eq_4 _ _ (fun h => hc.2 h) (fun _ _ _ h _ => hc.1 h)
    (fun _ hr hn => hbreak ⟨hr, by rw [hn]; rfl⟩)]
  simp only [hx, Bool.false_eq_true, if_false, upTo, List.take_takeWhile]

/-- What is taken of a literal's inside is taken where its quote follows. -/
theorem upTo_append {p : Char → Bool} (hp : p quote = false) (n : Nat) (cs rest : List Char) :
    upTo n p (cs ++ quote :: rest) = upTo n p cs := by
  have hquote : (quote :: rest).takeWhile p = [] := List.takeWhile_cons_of_neg (by simp [hp])
  rw [upTo, List.takeWhile_append, hquote, List.append_nil, upTo]
  split
  next hall =>
    have := List.takeWhile_prefix (l := cs) p
    rw [this.eq_of_length hall]
  next => rfl

theorem length_upTo (n : Nat) (p : Char → Bool) (cs : List Char) : (upTo n p cs).length ≤ cs.length := by
  have := congrArg List.length (upTo_append_drop n p cs)
  rw [List.length_append] at this
  omega

theorem length_upTo_le {m n : Nat} (h : m ≤ n) {p : Char → Bool} {cs : List Char} :
    (upTo m p cs).length ≤ (upTo n p cs).length := by
  simp only [upTo, List.length_take]
  omega

theorem unicodeEscapeAt?_of_unicodeEscape? (h : unicodeEscape? cs = some (us, rest)) :
    ∃ taken, cs = taken ++ rest ∧ unicodeEscapeAt? ('\\' :: 'u' :: cs) = some ('\\' :: 'u' :: taken, rest) := by
  obtain ⟨digits, rfl, hdigits, hvalue, -⟩ | ⟨a, b, c, d, rfl, hbrace, hdigits, -⟩ := unicodeEscape?_eq_some h
  · obtain ⟨htaken, hleft⟩ := span_digits hdigits rest
    have hnonempty : digits.isEmpty = false := List.isEmpty_eq_false_iff.mpr hvalue.1
    exact ⟨'\x7b' :: (digits ++ ['\x7d']), by simp, by simp [unicodeEscapeAt?, htaken, hleft, hnonempty]⟩
  · exact ⟨[a, b, c, d], rfl, (unicodeEscapeAt?.eq_2 a b c d rest hbrace).trans (if_pos hdigits)⟩

/-- The lexer takes an escape whole. It gives an octal escape up to three digits, also where two are all
that it may have. -/
theorem escapeAt?_of_escape? (hquote : quote = '"' ∨ quote = '\x27') (h : escape? cs = some (us, rest))
    (behind : List Char) :
    ∃ taken digits left, cs = taken ++ left ∧ rest = digits ++ left ∧ (∀ d ∈ digits, isOctalDigit d = true) ∧
      escapeAt? ('\\' :: (cs ++ quote :: behind)) = some ('\\' :: taken, left ++ quote :: behind) := by
  have hoctal : isOctalDigit quote = false := by rcases hquote with rfl | rfl <;> rfl
  have hfeed : quote ≠ '\n' := by rcases hquote with rfl | rfl <;> decide
  cases cs with
  | nil => cases h
  | cons c cs =>
    simp only [escape?] at h
    split_ifs at h with hx hu ho hend
    · subst hx
      obtain ⟨a, b, rfl, hdigits, -⟩ := hexEscape?_eq_some h
      refine ⟨['x', a, b], [], rest, rfl, rfl, by simp, ?_⟩
      have hboth : (isHexDigit a && isHexDigit b) = true := by simpa using hdigits
      exact if_pos hboth
    · subst hu
      obtain ⟨taken, rfl, htaken⟩ := unicodeEscapeAt?_of_unicodeEscape? h
      refine ⟨'u' :: taken, [], rest, rfl, rfl, by simp, ?_⟩
      exact unicodeEscapeAt?_append htaken (quote :: behind)
    · cases h
      have hle : (upTo (octalRoom c) isOctalDigit cs).length ≤ (upTo 2 isOctalDigit cs).length :=
        length_upTo_le (by unfold octalRoom; split <;> omega)
      have hsplit := upTo_append_drop 2 isOctalDigit cs
      refine ⟨c :: upTo 2 isOctalDigit cs, (upTo 2 isOctalDigit cs).drop (upTo (octalRoom c) isOctalDigit cs).length,
        cs.drop (upTo 2 isOctalDigit cs).length, ?_, ?_, fun d hd => all_upTo d (List.mem_of_mem_drop hd), ?_⟩
      · rw [List.cons_append, hsplit]
      · rw [← List.drop_append_of_le_length hle, hsplit]
      · have hreturn : c ≠ '\r' := by rintro rfl; exact absurd ho (by decide)
        rw [List.cons_append, escapeAt?_char ⟨hx, hu⟩ fun h => hreturn h.1, if_pos ho, upTo_append hoctal,
          List.drop_append_of_le_length (length_upTo 2 isOctalDigit cs)]
    · cases h
      have hno : ¬isOctalDigit c = true := ho
      by_cases hpair : c = '\r' ∧ cs.head? = some '\n'
      · obtain ⟨rfl, hhead⟩ := hpair
        obtain ⟨cs, rfl⟩ := List.head?_eq_some_iff.mp hhead
        exact ⟨['\r', '\n'], [], cs, rfl, rfl, by simp, rfl⟩
      · have hnone : upTo 1 (fun d => c == '\r' && d == '\n') cs = [] := by
          cases cs with
          | nil => rfl
          | cons d cs =>
            rw [upTo, List.takeWhile_cons_of_neg (by simpa using hpair), List.take_nil]
        refine ⟨[c], [], cs, rfl, by rw [hnone]; rfl, by simp, ?_⟩
        have hbreak : ¬(c = '\r' ∧ (cs ++ quote :: behind).head? = some '\n') := by
          rintro ⟨hreturn, hhead⟩
          cases cs with
          | nil => exact hfeed (Option.some.inj hhead)
          | cons d cs => exact hpair ⟨hreturn, hhead⟩
        rw [List.cons_append, escapeAt?_char ⟨hx, hu⟩ hbreak, if_neg hno]
    · cases h
      refine ⟨[c], [], rest, rfl, rfl, by simp, ?_⟩
      have hreturn : c ≠ '\r' := by rintro rfl; exact absurd rfl hend
      rw [List.cons_append, escapeAt?_char ⟨hx, hu⟩ fun h => hreturn h.1, if_neg ho]

theorem value?_of_digits (hquote : quote = '"' ∨ quote = '\x27') {digits : List Char}
    (hdigits : ∀ d ∈ digits, isOctalDigit d = true) (h : value? quote (digits ++ cs) = some us) :
    ∃ us, value? quote cs = some us := by
  induction digits generalizing us with
  | nil => exact ⟨us, h⟩
  | cons d digits ih =>
    have hd := hdigits d List.mem_cons_self
    have hne (e : Char) (he : isOctalDigit e = false) : d ≠ e := by
      rintro rfl
      exact absurd hd (by simp [he])
    rw [List.cons_append, value?_char (hne _ rfl) (by rcases hquote with rfl | rfl <;> exact hne _ rfl)
      ⟨hne _ rfl, hne _ rfl⟩] at h
    obtain ⟨units, hrest, -⟩ := Option.map_eq_some_iff.mp h
    exact ih (fun e he => hdigits e (List.mem_cons_of_mem _ he)) hrest

/-- The lexer finds the end of a literal. -/
theorem stringTail_of_value? (hquote : quote = '"' ∨ quote = '\x27') (behind : List Char) {n : Nat}
    (hn : cs.length < n) (h : value? quote cs = some us) :
    stringTail quote n (cs ++ quote :: behind) = some (cs, behind) := by
  induction n generalizing cs us with
  | zero => exact absurd hn (Nat.not_lt_zero _)
  | succ n ih =>
    cases cs with
    | nil => simp [stringTail]
    | cons c cs =>
      have hlength : cs.length < n := Nat.lt_of_succ_lt_succ hn
      rw [value?] at h
      split_ifs at h with hslash hplain
      · subst hslash
        split at h
        next us' rest hescape =>
          obtain ⟨units, hrest, -⟩ := Option.map_eq_some_iff.mp h
          obtain ⟨taken, digits, left, rfl, rfl, hdigits, hlex⟩ := escapeAt?_of_escape? hquote hescape behind
          obtain ⟨units', hleft⟩ := value?_of_digits hquote hdigits hrest
          have hquote' : ('\\' == quote) = false := by rcases hquote with rfl | rfl <;> rfl
          have hleft' : left.length < n := by
            rw [List.length_append] at hlength
            omega
          have htail := ih hleft' hleft
          simp only [List.cons_append] at hlex ⊢
          have hends : ('\\' == '\n' || '\\' == '\r') = false := rfl
          simp only [stringTail, hquote', hends, hlex, Bool.false_eq_true, if_false, beq_self_eq_true, if_true,
            Option.bind_eq_bind, Option.bind_some, htail]
          rfl
        next => cases h
      · obtain ⟨units, hrest, -⟩ := Option.map_eq_some_iff.mp h
        simp only [not_or] at hplain
        obtain ⟨hne, hends⟩ := hplain
        have hends' : (c == '\n' || c == '\r') = false := by simp [hends]
        simp only [List.cons_append, stringTail, beq_iff_eq, hne, hends', hslash, Bool.false_eq_true, if_false,
          ih hlength hrest]
        rfl

/-- A literal that has a value is one token, whatever stands behind it. -/
theorem tokenAt_quoted (hquote : quote = '"' ∨ quote = '\x27') (h : value? quote cs = some us)
    (behind : List Char) : tokenAt (quote :: (cs ++ quote :: behind)) = (.string quote cs, behind) := by
  have htail : stringTail quote (quote :: (cs ++ quote :: behind)).length (cs ++ quote :: behind) =
      some (cs, behind) := by
    refine stringTail_of_value? hquote behind ?_ h
    rw [List.length_cons, List.length_append]
    omega
  have hstart : (quote == '"' || quote == '\x27') = true := by rcases hquote with rfl | rfl <;> rfl
  simp only [tokenAt, hstart, if_true, htail]

end

/-- What is kept of a string literal is the inside of a literal in double quotes with the same value. In
it every double quote is escaped and every backslash escapes something, and the lexer takes the literal
for one token again. -/
theorem value?_content {quote : Char} {inner : List Char} {us : List UInt16}
    (hquote : quote = '"' ∨ quote = '\x27') (h : value? quote inner = some us) (behind : List Char) :
    value? '"' (content quote inner).toList = some us ∧
      isClosed '"' (content quote inner).toList = true ∧
      tokenAt (quote :: (inner ++ quote :: behind)) = (.string quote inner, behind) ∧
      tokenAt ('"' :: ((content quote inner).toList ++ '"' :: behind)) =
        (.string '"' (content quote inner).toList, behind) := by
  have hkept : value? '"' (content quote inner).toList = some us := by
    rw [content, String.toList_ofList]
    rcases hquote with rfl | rfl
    · exact h
    · exact value?_redelimit h
  exact ⟨hkept, isClosed_of_value? (.inl rfl) hkept, tokenAt_quoted hquote h behind,
    tokenAt_quoted (.inl rfl) hkept behind⟩

/-- The inside of a literal with a backslash before each quote but one, and escapes of every kind. -/
def mixedEscapes : List Char :=
  "\\\\\\'\\\\\"\\0\\1017\\u\x7b1F600\x7d\\\r\né\\\"".toList

theorem value?_content_mixedEscapes :
    value? '\x27' mixedEscapes = some [92, 39, 92, 34, 0, 65, 55, 0xD83D, 0xDE00, 233, 34] ∧
      value? '"' (content '\x27' mixedEscapes).toList =
        some [92, 39, 92, 34, 0, 65, 55, 0xD83D, 0xDE00, 233, 34] ∧
      isClosed '"' (content '\x27' mixedEscapes).toList = true ∧
      tokenAt ('\x27' :: (mixedEscapes ++ ['\x27', ';'])) = (.string '\x27' mixedEscapes, [';']) ∧
      tokenAt ('"' :: ((content '\x27' mixedEscapes).toList ++ ['"', ';'])) =
        (.string '"' (content '\x27' mixedEscapes).toList, [';']) := by
  have h : value? '\x27' mixedEscapes = some [92, 39, 92, 34, 0, 65, 55, 0xD83D, 0xDE00, 233, 34] := by
    decide +kernel
  exact ⟨h, value?_content (.inr rfl) h [';']⟩

example : content '\x27' mixedEscapes = "\\\\'\\\\\\\"\\0\\1017\\u\x7b1F600\x7d\\\r\né\\\"" := by
  decide +kernel

end Unminify.Quoted
