import Mathlib.Data.List.Forall2
import Unminify.Grammar.Script
import Unminify.Printer.Print
import Unminify.Proofs.Grammar.Parses

/-!
# Elements of arrays

Array literals and array patterns have elements with commas between them, and elements may be left out.
What a run of elements and commas means is told by one pending slot (`slots`): a comma ends the slot in
front of it, filled or not, while the closing bracket only ends a slot that is filled.

The loop of the parser finds these slots (`loop_round`), whatever its elements are; the text of a list is made of
elements and commas whose slots are the list (`splits_elements`, `slots_entries`).
-/

namespace Unminify.Grammar

open Character Unminify.Grammar.Parser

/-! ## Sources in front of a parser -/

/-- The look-ahead is the first token of a source, behind the gap at its start. -/
def Lexeme.Faces (l : Lexeme) (cs : List Char) : Prop :=
  ∃ p, l.token = (Lexeme.next p cs).token ∧ l.here = (Lexeme.next p cs).here ∧ l.rest = (Lexeme.next p cs).rest

/-- A source starts with a mark, behind its first gap. -/
def StartsWith (text : String) (cs rest : List Char) : Prop :=
  ∀ p, (Lexeme.next p cs).token = .mark text ∧ (Lexeme.next p cs).rest = rest

/-- Apart from comments, a gap ends at the first character that is not blank. -/
theorem gapFrom_cons {c : Char} {cs : List Char} (hline : ∀ ds, c :: cs ≠ '/' :: '/' :: ds)
    (hblock : ∀ ds, c :: cs ≠ '/' :: '*' :: ds) (p : Nat) (b : Bool) :
    (gapFrom .between p (c :: cs) = if isBlank c then gapFrom (.blanks (breaksLine c)) (p + c.utf8Size) cs
      else { pieces := [], stop := p, rest := c :: cs }) ∧
    gapFrom (.blanks b) p (c :: cs) = if isBlank c then gapFrom (.blanks (b || breaksLine c)) (p + c.utf8Size) cs
      else { pieces := [.blank b], stop := p, rest := c :: cs } := by
  constructor
  all_goals
    rw [gapFrom.eq_def]
    split
    case h_2 heq | h_6 heq => exact absurd heq (hline _)
    case h_3 heq | h_7 heq => exact absurd heq (hblock _)
    all_goals grind

/-- Behind blanks a gap goes on as it would without them. -/
theorem gapFrom_blanks (b : Bool) (p : Nat) (cs : List Char) :
    (gapFrom (.blanks b) p cs).rest = (gapFrom .between p cs).rest ∧
      (gapFrom (.blanks b) p cs).unclosed = (gapFrom .between p cs).unclosed := by
  induction cs generalizing b p with
  | nil => exact ⟨rfl, rfl⟩
  | cons c cs ih =>
    by_cases hline : ∃ ds, c :: cs = '/' :: '/' :: ds
    · obtain ⟨ds, hline⟩ := hline
      rw [hline]
      exact ⟨rfl, rfl⟩
    by_cases hblock : ∃ ds, c :: cs = '/' :: '*' :: ds
    · obtain ⟨ds, hblock⟩ := hblock
      rw [hblock]
      exact ⟨rfl, rfl⟩
    obtain ⟨hbetween, hblanks⟩ := gapFrom_cons (fun ds h => hline ⟨ds, h⟩) (fun ds h => hblock ⟨ds, h⟩) p b
    rw [hbetween, hblanks]
    split
    · exact ⟨(ih _ _).1.trans (ih _ _).1.symm, (ih _ _).2.trans (ih _ _).2.symm⟩
    · exact ⟨rfl, rfl⟩

section

variable {s : State} {cs rest : List Char} {text : String} {l : Lexeme}

theorem Lexeme.faces_next (p : Nat) (cs : List Char) : (Lexeme.next p cs).Faces cs := ⟨p, rfl, rfl, rfl⟩

/-- A blank in front makes no difference. -/
theorem Lexeme.next_blank (p : Nat) (cs : List Char) :
    (Lexeme.next p (' ' :: cs)).token = (Lexeme.next (p + 1) cs).token ∧
      (Lexeme.next p (' ' :: cs)).here = (Lexeme.next (p + 1) cs).here ∧
      (Lexeme.next p (' ' :: cs)).rest = (Lexeme.next (p + 1) cs).rest := by
  obtain ⟨hrest, hunclosed⟩ := gapFrom_blanks false (p + 1) cs
  have hgap : gapFrom .between p (' ' :: cs) = gapFrom (.blanks false) (p + 1) cs := rfl
  simp only [Lexeme.next, hgap, hrest, hunclosed, and_self]

theorem Lexeme.Faces.of_blank (h : l.Faces (' ' :: cs)) : l.Faces cs := by
  obtain ⟨p, htoken, hhere, hrest⟩ := h
  obtain ⟨htoken', hhere', hrest'⟩ := Lexeme.next_blank p cs
  exact ⟨p + 1, htoken.trans htoken', hhere.trans hhere', hrest.trans hrest'⟩

theorem StartsWith.blank (h : StartsWith text cs rest) : StartsWith text (' ' :: cs) rest := by
  intro p
  obtain ⟨htoken, -, hrest⟩ := Lexeme.next_blank p cs
  rw [htoken, hrest]
  exact h (p + 1)

theorem Lexeme.Faces.mark (h : l.Faces cs) (hcs : StartsWith text cs rest) :
    l.token = .mark text ∧ l.rest = rest := by
  obtain ⟨p, htoken, -, hrest⟩ := h
  exact ⟨htoken.trans (hcs p).1, hrest.trans (hcs p).2⟩

theorem Lexeme.Faces.length_le (h : l.Faces cs) : l.here.length ≤ cs.length := by
  obtain ⟨p, -, hhere, -⟩ := h
  obtain ⟨gap, hcs, -⟩ := takes_gapFrom .between p cs
  have hlength := congrArg List.length hcs
  rw [List.length_append] at hlength
  rw [hhere, hlength]
  exact Nat.le_add_left _ _

/-- Behind a mark less is left. -/
theorem Lexeme.Faces.length_lt (h : l.Faces cs) (htoken : l.token = .mark text) (htext : text ≠ "") :
    l.rest.length < l.here.length := by
  obtain ⟨p, htoken', hhere, hrest⟩ := h
  rw [htoken'] at htoken
  rcases Lexeme.next_cases p cs with ⟨-, hunknown⟩ | ⟨-, hat⟩
  · cases hunknown.symm.trans htoken
  · rw [htoken, ← hhere, ← hrest] at hat
    have hlength := congrArg List.length (tokenAt_text hat nofun).1
    rw [List.length_append] at hlength
    have hpos : text.toList ≠ [] := fun h => htext (String.toList_eq_nil_iff.mp h)
    have hpos := List.length_pos_iff.mpr hpos
    rw [hlength]
    exact Nat.lt_add_of_pos_left hpos

theorem loop_more {σ : Type} {step : σ → Parser (σ × Bool)} {t : State} {n : Nat} {acc acc' : σ}
    (h : step acc s = some ((acc', true), t)) : loop step (n + 1) acc s = loop step n acc' t := by
  rw [loop, bind_of_some h]
  rfl

theorem loop_done {σ : Type} {step : σ → Parser (σ × Bool)} {t : State} {n : Nat} {acc acc' : σ}
    (h : step acc s = some ((acc', false), t)) : loop step (n + 1) acc s = some (acc', t) := by
  rw [loop, bind_of_some h]
  rfl

theorem mark?_of_token (h : s.next.token = .mark text) :
    mark? text s = some (true, s.resumed s.next.stop s.next.rest) := by
  have hat : atMark text s = some (true, s) := by
    show some (s.next.token == .mark text, s) = _
    rw [h, beq_self_eq_true]
  rw [mark?, bind_of_some hat, if_pos rfl, bind_of_some (advance_eq (by rw [h]; exact ⟨nofun, nofun⟩))]
  rfl

theorem mark?_of_ne (h : s.next.token ≠ .mark text) : mark? text s = some (false, s) := by
  have hat : atMark text s = some (false, s) := by
    show some (s.next.token == .mark text, s) = _
    rw [beq_eq_false_iff_ne.mpr h]
  rw [mark?, bind_of_some hat]
  rfl

theorem mark_of_token (h : s.next.token = .mark text) :
    mark text s = some ((), s.resumed s.next.stop s.next.rest) := by
  have hat : atMark text s = some (true, s) := by
    show some (s.next.token == .mark text, s) = _
    rw [h, beq_self_eq_true]
  rw [mark, bind_of_some hat, if_pos rfl, advance_eq (by rw [h]; exact ⟨nofun, nofun⟩)]

end

/-- A token that starts a source has no gap in front of it. -/
theorem Lexeme.next_of_tokenAt {c : Char} {cs rest : List Char} {t : Token} (hblank : isBlank c = false)
    (hslash : c ≠ '/') (h : tokenAt (c :: cs) = (t, rest)) (p : Nat) :
    (Lexeme.next p (c :: cs)).token = t ∧ (Lexeme.next p (c :: cs)).here = c :: cs ∧
      (Lexeme.next p (c :: cs)).rest = rest := by
  have hne (d : Char) (ds : List Char) : c :: cs ≠ '/' :: d :: ds := fun heq => hslash (List.cons.inj heq).1
  have hgap : gapFrom .between p (c :: cs) = { pieces := [], stop := p, rest := c :: cs } := by
    rw [(gapFrom_cons (hne '/') (hne '*') p false).1, if_neg (by simp [hblank])]
  simp only [Lexeme.next, hgap, Bool.false_eq_true, if_false, h, and_self]

/-- The marks of arrays. -/
def arrayMarks : List Char := ['[', ',', ']']

theorem startsWith_arrayMark {c : Char} (hc : c ∈ arrayMarks) (rest : List Char) :
    StartsWith (String.ofList [c]) (c :: rest) rest := by
  have hall : ∀ c ∈ arrayMarks, isBlank c = false ∧ c ≠ '/' := List.forall_iff_forall_mem.mp (by decide)
  have htoken : tokenAt (c :: rest) = (.mark (String.ofList [c]), rest) := by
    simp only [arrayMarks, List.mem_cons, List.not_mem_nil, or_false] at hc
    rcases hc with rfl | rfl | rfl
    all_goals
      rw [tokenAt.eq_2, numberAt?_of_not (by decide) (by decide)]
      rfl
  intro p
  obtain ⟨ht, -, hrest⟩ := Lexeme.next_of_tokenAt (hall c hc).1 (hall c hc).2 htoken p
  exact ⟨ht, hrest⟩

theorem startsWith_opening (rest : List Char) : StartsWith "[" ('[' :: rest) rest :=
  startsWith_arrayMark (by decide) rest

theorem startsWith_comma (rest : List Char) : StartsWith "," (',' :: rest) rest :=
  startsWith_arrayMark (by decide) rest

theorem startsWith_closing (rest : List Char) : StartsWith "]" (']' :: rest) rest :=
  startsWith_arrayMark (by decide) rest

/-! ## Slots -/

/-- The slots that elements and commas fill, a comma being an absent entry. An element waits for the comma
that ends its slot; at the closing bracket, an element that still waits has a slot, but nothing has none. -/
def slots {α : Type} (pending : Option α) : List (Option α) → List (Option α)
  | [] => if pending.isSome then [pending] else []
  | none :: entries => pending :: slots none entries
  | some a :: entries => slots (some a) entries

/-- No element stands directly behind another one. -/
def Separated {α : Type} (entries : List (Option α)) : Prop :=
  entries.IsChain fun x y => x = none ∨ y = none

/-- The elements and commas that are written for a list: an absent last element has a comma of its own. -/
def entries {α : Type} : List (Option α) → List (Option α)
  | [] => []
  | [a] => [a]
  | none :: as => none :: entries as
  | some a :: as => some a :: none :: entries as

theorem slots_entries {α : Type} (as : List (Option α)) : slots none (entries as) = as := by
  fun_induction entries as with
  | case1 => rfl
  | case2 a => cases a <;> rfl
  | case3 as _ ih => exact congrArg (none :: ·) ih
  | case4 a as _ ih => exact congrArg (some a :: ·) ih

theorem separated_entries {α : Type} (as : List (Option α)) : Separated (entries as) := by
  have hcomma {es : List (Option α)} (h : Separated es) : Separated (none :: es) := by
    cases es with
    | nil => exact .singleton _
    | cons e es => exact .cons_cons (.inl rfl) h
  fun_induction entries as with
  | case1 => exact .nil
  | case2 a => exact .singleton _
  | case3 as _ ih => exact hcomma ih
  | case4 a as _ ih => exact .cons_cons (.inr rfl) (hcomma ih)

/-! ## Reading -/

/-- A way of reading and writing elements: how one is parsed, which tree it has, and its text. -/
structure ElementForm (α : Type) where
  {Item : Type}
  item : Parser Item
  reading : Item → Reading α
  write : α → String

namespace ElementForm

variable {α β : Type} (F : ElementForm α)

/-- Reads an array. -/
def read : Parser (Reading (List (Option α))) := do
  mark "["
  let found ← elements "]" F.item
  return readElements (found.map fun x => x.map F.reading)

/-- Writes an array. -/
def text (as : List (Option α)) : String :=
  "[" ++ Printer.elements (as.map fun a => a.map F.write) ++ "]"

/-- A source starts with an element that is read as something with a given property. -/
structure Element (P : α → Prop) (cs behind : List Char) : Prop where
  starts : ∀ p, (Lexeme.next p cs).token ≠ .mark "," ∧ (Lexeme.next p cs).token ≠ .mark "]"
  within : ∀ p, behind.length ≤ (Lexeme.next p cs).here.length
  read : ∀ s : State, s.next.Faces cs →
    ∃ x s', F.item s = some (x, s') ∧ s'.next.Faces behind ∧ ∃ a, F.reading x = .ok a ∧ P a

/-- A source consists of some elements and commas up to a closing bracket. -/
inductive Splits (R : β → α → Prop) : List Char → List (Option β) → List Char → Prop
  | closing {cs rest : List Char} (h : StartsWith "]" cs rest) : Splits R cs [] rest
  | comma {cs behind rest : List Char} {es : List (Option β)} (h : StartsWith "," cs behind)
      (hrest : Splits R behind es rest) : Splits R cs (none :: es) rest
  | element {cs behind rest : List Char} {b : β} {es : List (Option β)} (h : F.Element (R b) cs behind)
      (hrest : Splits R behind es rest) : Splits R cs (some b :: es) rest

/-- A source starts with brackets around some elements and commas. -/
def Bracketed (R : β → α → Prop) (cs : List Char) (es : List (Option β)) (rest : List Char) : Prop :=
  ∃ inside, StartsWith "[" cs inside ∧ F.Splits R inside es rest

variable {F} {R : β → α → Prop} {cs behind rest : List Char} {es : List (Option β)} {s : State}

theorem Element.imp {P Q : α → Prop} (h : F.Element P cs behind) (hPQ : ∀ a, P a → Q a) :
    F.Element Q cs behind where
  starts := h.starts
  within := h.within
  read s hs := by
    obtain ⟨x, s', hitem, hs', a, hreading, ha⟩ := h.read s hs
    exact ⟨x, s', hitem, hs', a, hreading, hPQ a ha⟩

/-- One round of the loop over elements. -/
def round (close : String) (item : Parser α) (acc : List (Option α)) : Parser (List (Option α) × Bool) := do
  if ← mark? close then return (acc, false)
  else if ← mark? "," then return (none :: acc, true)
  else
    let x ← item
    if ← mark? "," then return (some x :: acc, true)
    else
      mark close
      return (some x :: acc, false)

theorem elements_eq (close : String) (item : Parser α) :
    elements close item = (repeatFrom [] (round close item) >>= fun found => pure found.reverse) := rfl

/-- What an element is read as, if its parser has succeeded. -/
def Yields (F : ElementForm α) (R : β → α → Prop) (b : β) (x : F.Item) : Prop :=
  ∃ a, F.reading x = .ok a ∧ R b a

theorem round_closing (hs : s.next.Faces cs) (h : StartsWith "]" cs rest) (acc : List (Option α)) (item : Parser α) :
    ∃ s', round "]" item acc s = some ((acc, false), s') ∧ s'.next.Faces rest := by
  obtain ⟨htoken, hrest⟩ := hs.mark h
  refine ⟨s.resumed s.next.stop s.next.rest, ?_, hrest ▸ Lexeme.faces_next _ _⟩
  rw [round, bind_of_some (mark?_of_token htoken), if_pos rfl]
  rfl

theorem round_comma (hs : s.next.Faces cs) (h : StartsWith "," cs behind) (acc : List (Option α)) (item : Parser α) :
    ∃ s', round "]" item acc s = some ((none :: acc, true), s') ∧ s'.next.Faces behind ∧
      s'.next.here.length < s.next.here.length := by
  obtain ⟨htoken, hrest⟩ := hs.mark h
  refine ⟨s.resumed s.next.stop s.next.rest, ?_, hrest ▸ Lexeme.faces_next _ _, ?_⟩
  · rw [round, bind_of_some (mark?_of_ne (by rw [htoken]; simp)), if_neg nofun,
      bind_of_some (mark?_of_token htoken), if_pos rfl]
    rfl
  · exact Nat.lt_of_le_of_lt (Lexeme.faces_next _ _).length_le (hs.length_lt htoken (by simp))

/-- A round that comes to an element looks for a mark behind it. -/
theorem Element.round {b : β} (h : F.Element (R b) cs behind) (hs : s.next.Faces cs) :
    ∃ x t, F.Yields R b x ∧ t.next.Faces behind ∧ t.next.here.length ≤ s.next.here.length ∧
      ∀ acc, ElementForm.round "]" F.item acc s = (mark? "," >>= fun found =>
        if found then pure (some x :: acc, true) else mark "]" >>= fun _ => pure (some x :: acc, false)) t := by
  obtain ⟨x, t, hitem, ht, hx⟩ := h.read s hs
  obtain ⟨p, htoken, hhere, -⟩ := hs
  refine ⟨x, t, hx, ht, hhere ▸ Nat.le_trans ht.length_le (h.within p), fun acc => ?_⟩
  obtain ⟨hcomma, hclosing⟩ := h.starts p
  rw [ElementForm.round, bind_of_some (mark?_of_ne (by rwa [htoken])), if_neg nofun,
    bind_of_some (mark?_of_ne (by rwa [htoken])), if_neg nofun, bind_of_some hitem]

theorem round_element_comma {b : β} (hs : s.next.Faces cs) (h : F.Element (R b) cs behind)
    (hcomma : StartsWith "," behind rest) :
    ∃ x s', F.Yields R b x ∧ s'.next.Faces rest ∧ s'.next.here.length < s.next.here.length ∧
      ∀ acc, round "]" F.item acc s = some ((some x :: acc, true), s') := by
  obtain ⟨x, t, hx, ht, hlength, hround⟩ := h.round hs
  obtain ⟨htoken, hrest⟩ := ht.mark hcomma
  refine ⟨x, t.resumed t.next.stop t.next.rest, hx, hrest ▸ Lexeme.faces_next _ _, ?_, fun acc => ?_⟩
  · have hless := ht.length_lt htoken (by simp)
    have hle := (Lexeme.faces_next t.next.stop t.next.rest).length_le
    exact Nat.lt_of_le_of_lt hle (Nat.lt_of_lt_of_le hless hlength)
  · rw [hround, bind_of_some (mark?_of_token htoken), if_pos rfl]
    rfl

theorem round_element_closing {b : β} (hs : s.next.Faces cs) (h : F.Element (R b) cs behind)
    (hclosing : StartsWith "]" behind rest) :
    ∃ x s', F.Yields R b x ∧ s'.next.Faces rest ∧
      ∀ acc, round "]" F.item acc s = some ((some x :: acc, false), s') := by
  obtain ⟨x, t, hx, ht, -, hround⟩ := h.round hs
  obtain ⟨htoken, hrest⟩ := ht.mark hclosing
  refine ⟨x, t.resumed t.next.stop t.next.rest, hx, hrest ▸ Lexeme.faces_next _ _, fun acc => ?_⟩
  rw [hround, bind_of_some (mark?_of_ne (by rw [htoken]; simp)), if_neg nofun,
    bind_of_some (mark_of_token htoken)]
  rfl

/-- The loop over elements finds the slots. A comma is taken together with an element in front of it, so
the recursion takes one or two entries at a time. -/
theorem loop_round : ∀ {es : List (Option β)} {cs : List Char} {s : State} {n : Nat}
    (acc : List (Option F.Item)), Separated es → F.Splits R cs es rest → s.next.Faces cs →
    s.next.here.length < n →
    ∃ found s', loop (round "]" F.item) n acc s = some (found.reverse ++ acc, s') ∧
      List.Forall₂ (Option.Rel (F.Yields R)) (slots none es) found ∧ s'.next.Faces rest
  | _, _, _, 0, _, _, _, _, hn => absurd hn (Nat.not_lt_zero _)
  | [], cs, s, n + 1, acc, _, .closing h, hs, hn => by
    obtain ⟨s', hround, hs'⟩ := round_closing hs h acc F.item
    refine ⟨[], s', ?_, .nil, hs'⟩
    exact loop_done hround
  | none :: es, cs, s, n + 1, acc, hes, .comma h hrest, hs, hn => by
    obtain ⟨t, hround, ht, hlength⟩ := round_comma hs h acc F.item
    have hn : t.next.here.length < n := by omega
    obtain ⟨found, s', hloop, hfound, hs'⟩ := loop_round (none :: acc) hes.of_cons hrest ht hn
    refine ⟨none :: found, s', ?_, .cons .none hfound, hs'⟩
    rw [loop_more hround, hloop, List.reverse_cons, List.append_assoc, List.singleton_append]
  | [some b], cs, s, n + 1, acc, _, .element h (.closing hclosing), hs, hn => by
    obtain ⟨x, s', hx, hs', hround⟩ := round_element_closing hs h hclosing
    refine ⟨[some x], s', ?_, .cons (.some hx) .nil, hs'⟩
    exact loop_done (hround acc)
  | some b :: none :: es, cs, s, n + 1, acc, hes, .element h (.comma hcomma hrest), hs, hn => by
    obtain ⟨x, t, hx, ht, hlength, hround⟩ := round_element_comma hs h hcomma
    have hn : t.next.here.length < n := by omega
    obtain ⟨found, s', hloop, hfound, hs'⟩ := loop_round (some x :: acc) hes.of_cons.of_cons hrest ht hn
    refine ⟨some x :: found, s', ?_, .cons (.some hx) hfound, hs'⟩
    rw [loop_more (hround acc), hloop, List.reverse_cons, List.append_assoc, List.singleton_append]
  | some b :: some c :: es, _, _, _, _, hes, _, _, _ => by
    rcases (List.isChain_cons_cons.mp hes).1 with h | h <;> cases h

theorem readElements_map {found : List (Option F.Item)} {bs : List (Option β)}
    (h : List.Forall₂ (Option.Rel (F.Yields R)) bs found) :
    ∃ as, readElements (found.map fun x => x.map F.reading) = .ok as ∧ List.Forall₂ (Option.Rel R) bs as := by
  induction h with
  | nil => exact ⟨[], rfl, .nil⟩
  | cons hx _ ih =>
    obtain ⟨as, hread, has⟩ := ih
    rw [readElements] at hread
    cases hx with
    | none =>
      refine ⟨none :: as, ?_, .cons .none has⟩
      rw [readElements, List.map_cons, List.mapM_cons, hread]
      rfl
    | some hx =>
      obtain ⟨a, hreading, ha⟩ := hx
      refine ⟨some a :: as, ?_, .cons (.some ha) has⟩
      rw [readElements, List.map_cons, List.mapM_cons, hread, Option.map_some, hreading]
      rfl

/-- What brackets around separated elements are read as. -/
theorem Bracketed.read (h : F.Bracketed R cs es rest) (hes : Separated es) (hs : s.next.Faces cs) :
    ∃ as s', F.read s = some (.ok as, s') ∧ List.Forall₂ (Option.Rel R) (slots none es) as ∧
      s'.next.Faces rest := by
  obtain ⟨inside, hopening, hsplits⟩ := h
  obtain ⟨htoken, hrest⟩ := hs.mark hopening
  have ht : (s.resumed s.next.stop s.next.rest).next.Faces inside := hrest ▸ Lexeme.faces_next _ _
  obtain ⟨found, s', hloop, hfound, hs'⟩ := loop_round [] hes hsplits ht (Nat.lt_add_of_pos_right Nat.two_pos)
  rw [List.append_nil] at hloop
  obtain ⟨as, hread, has⟩ := readElements_map hfound
  refine ⟨as, s', ?_, has, hs'⟩
  have helements : elements "]" F.item (s.resumed s.next.stop s.next.rest) = some (found, s') := by
    rw [elements_eq, bind_of_some (show repeatFrom [] _ _ = _ from hloop), List.reverse_reverse]
    rfl
  rw [ElementForm.read, bind_of_some (mark_of_token htoken), bind_of_some helements, hread]
  rfl

/-! ## Writing -/

/-- In front of a comma or a closing bracket, the text of an element is read back. -/
def Recovers (F : ElementForm α) (same : α → α → Prop) (a : α) : Prop :=
  ∀ stop, stop = ',' ∨ stop = ']' → ∀ rest,
    F.Element (same a) ((F.write a).toList ++ stop :: rest) (stop :: rest)

/-- The text of a list of elements is read back. -/
def ReadsBack (F : ElementForm α) (same : α → α → Prop) (as : List (Option α)) : Prop :=
  ∀ (rest : List Char) (s : State), s.next.Faces ((F.text as).toList ++ rest) →
    ∃ as' s', F.read s = some (.ok as', s') ∧ List.Forall₂ (Option.Rel same) as as' ∧ s'.next.Faces rest

theorem Splits.blank (h : F.Splits R cs es rest) : F.Splits R (' ' :: cs) es rest := by
  cases h with
  | closing h => exact .closing h.blank
  | comma h hrest => exact .comma h.blank hrest
  | element h hrest =>
    refine .element ⟨fun p => ?_, fun p => ?_, fun s hs => h.read s hs.of_blank⟩ hrest
    · rw [(Lexeme.next_blank p _).1]
      exact h.starts (p + 1)
    · rw [(Lexeme.next_blank p _).2.1]
      exact h.within (p + 1)

theorem printer_elements_cons (t u : Option String) (parts : List (Option String)) :
    Printer.elements (t :: u :: parts) = t.getD "" ++ ", " ++ Printer.elements (u :: parts) := by
  simp only [Printer.elements, Printer.commaSeparated, List.map_cons, String.intercalate_cons_cons,
    List.getLast?_cons_cons, String.append_assoc]

theorem printer_elements_none : Printer.elements [none] = "," := by
  simp [Printer.elements, Printer.commaSeparated]

theorem printer_elements_some (t : String) : Printer.elements [some t] = t := by
  simp [Printer.elements, Printer.commaSeparated]

/-- A comma is written with a blank behind it. -/
theorem Splits.comma_blank (h : F.Splits R cs es rest) : F.Splits R (',' :: ' ' :: cs) (none :: es) rest :=
  .comma (startsWith_comma _) h.blank

/-- A written list splits into its elements and their commas. -/
theorem splits_elements {same : α → α → Prop} {as : List (Option α)} (h : ∀ a, some a ∈ as → F.Recovers same a)
    (rest : List Char) :
    F.Splits same ((Printer.elements (as.map fun a => a.map F.write)).toList ++ ']' :: rest) (entries as) rest := by
  have htext (a : Option α) {as : List (Option α)} (hne : as ≠ []) :
      (Printer.elements ((a :: as).map fun a => a.map F.write)).toList ++ ']' :: rest =
        ((a.map F.write).getD "").toList ++ ',' :: ' ' ::
          ((Printer.elements (as.map fun a => a.map F.write)).toList ++ ']' :: rest) := by
    obtain ⟨b, bs, rfl⟩ := List.exists_cons_of_ne_nil hne
    rw [List.map_cons, List.map_cons, printer_elements_cons]
    simp [String.toList_append]
  fun_induction entries as with
  | case1 => exact .closing (startsWith_closing rest)
  | case2 a =>
    cases a with
    | none =>
      rw [List.map_singleton, Option.map_none, printer_elements_none]
      exact .comma (startsWith_comma _) (.closing (startsWith_closing rest))
    | some a =>
      rw [List.map_singleton, Option.map_some, printer_elements_some]
      exact .element (h a List.mem_cons_self ']' (.inr rfl) rest) (.closing (startsWith_closing rest))
  | case3 as hne ih =>
    rw [htext none hne]
    exact (ih fun a ha => h a (List.mem_cons_of_mem _ ha)).comma_blank
  | case4 a as hne ih =>
    rw [htext (some a) hne]
    exact .element (h a List.mem_cons_self ',' (.inl rfl) _) (ih fun a ha => h a (List.mem_cons_of_mem _ ha)).comma_blank

theorem bracketed_text {same : α → α → Prop} {as : List (Option α)} (h : ∀ a, some a ∈ as → F.Recovers same a)
    (rest : List Char) : F.Bracketed same ((F.text as).toList ++ rest) (entries as) rest := by
  have htext : (F.text as).toList ++ rest =
      '[' :: ((Printer.elements (as.map fun a => a.map F.write)).toList ++ ']' :: rest) := by
    simp [text, String.toList_append]
  exact ⟨_, htext ▸ startsWith_opening _, splits_elements h rest⟩

theorem readsBack {same : α → α → Prop} {as : List (Option α)} (h : ∀ a, some a ∈ as → F.Recovers same a) :
    F.ReadsBack same as := by
  intro rest s hs
  obtain ⟨as', s', hread, has, hs'⟩ := (bracketed_text h rest).read (separated_entries as) hs
  rw [slots_entries] at has
  exact ⟨as', s', hread, has, hs'⟩

theorem exists_rel_of_mem {bs : List (Option β)} {as : List (Option α)}
    (h : List.Forall₂ (Option.Rel R) bs as) {a : α} (ha : some a ∈ as) : ∃ b, R b a := by
  induction h with
  | nil => cases ha
  | cons hx _ ih =>
    rcases List.mem_cons.mp ha with rfl | ha
    · cases hx with
      | some hx => exact ⟨_, hx⟩
    · exact ih ha

end ElementForm

end Unminify.Grammar
