import Mathlib
import Quorum.Json.Parser
import Quorum.Json.Text

/-!
# Reading back what was written

A canonical value is one whose numbers are written in digits and whose strings
need no escape sequence.  What the writer makes of it, the scanner takes apart
into the same tokens and the reader puts together to the same value.
-/

namespace Quorum.Json

/-- Whether a character stands for itself between quotes. -/
def isPlain (c : Char) : Bool :=
  c ≠ '"' && c ≠ '\\' && 0x20 ≤ c.toNat

/-- Values whose numbers are written in digits and whose strings have no escape sequence. -/
inductive Canonical : Json → Prop
  | null : Canonical .null
  | bool (b : Bool) : Canonical (.bool b)
  /-- A number of digits. -/
  | number {literal : List Char} (numeral : Token.isNumeral literal = true)
    (digits : ∀ c ∈ literal, c.isDigit = true) : Canonical (.number literal)
  /-- A string of characters that stand for themselves. -/
  | string {raw : List Char} (plain : ∀ c ∈ raw, isPlain c = true) :
    Canonical (.string raw)
  /-- An array of such values. -/
  | array {items : List Json} (items_canonical : ∀ v ∈ items, Canonical v) :
    Canonical (.array items)
  /-- An object of such values, with names of characters that stand for themselves. -/
  | object {members : List (List Char × Json)}
    (names_plain : ∀ m ∈ members, ∀ c ∈ m.1, isPlain c = true)
    (values_canonical : ∀ m ∈ members, Canonical m.2) : Canonical (.object members)

/-! ## Tokens -/

namespace Scanner

/-- The scanner has the tokens, last one first, if the text goes on with punctuation or ends. -/
inductive Holds : Scanner → List Token → Prop
  /-- All tokens are complete. -/
  | blank (ts : List Token) : Holds ⟨.blank, ts⟩ ts
  /-- The last token is a number. -/
  | number {literal : List Char} (numeral : Token.isNumeral literal.reverse = true)
    (ts : List Token) : Holds ⟨.number literal, ts⟩ (.number literal.reverse :: ts)
  /-- The last token is a word. -/
  | word {word : List Char} {t : Token} (known : Token.ofWord? word.reverse = some t)
    (ts : List Token) : Holds ⟨.word word, ts⟩ (t :: ts)

/-- A token is a single punctuation character. -/
def Punctuates (t : Token) : Prop :=
  ∃ c, t.chars = [c] ∧ Token.ofPunctuation? c = some t

/-- Punctuation is neither blank nor a part of any other token. -/
theorem begin_of_punctuation {c : Char} {t : Token} (h : Token.ofPunctuation? c = some t)
    (ts : List Token) :
    isNumberChar c = false ∧ c.isLower = false ∧ begin ts c = some ⟨.blank, t :: ts⟩ := by
  have hc : c ∈ ['\x7b', '\x7d', '[', ']', ':', ','] := by
    by_contra hne
    simp only [List.mem_cons, List.not_mem_nil, or_false, not_or] at hne
    obtain ⟨h₁, h₂, h₃, h₄, h₅, h₆⟩ := hne
    rw [Token.ofPunctuation?, if_neg h₁, if_neg h₂, if_neg h₃, if_neg h₄, if_neg h₅,
      if_neg h₆] at h
    cases h
  have hplain : ∀ c ∈ ['\x7b', '\x7d', '[', ']', ':', ','],
      isNumberChar c = false ∧ c.isLower = false ∧ isBlank c = false ∧ c ≠ '"' ∧
        (c.isDigit || c == '-') = false := by
    intro c hc
    simp only [List.mem_cons, List.not_mem_nil, or_false] at hc
    rcases hc with rfl | rfl | rfl | rfl | rfl | rfl <;>
      exact ⟨rfl, rfl, rfl, by decide, rfl⟩
  obtain ⟨hnumber, hlower, hblank, hquote, hdigit⟩ := hplain c hc
  refine ⟨hnumber, hlower, ?_⟩
  rw [begin, hblank, if_neg Bool.false_ne_true, if_neg hquote, hdigit,
    if_neg Bool.false_ne_true, hlower, if_neg Bool.false_ne_true, h]
  rfl

/-- Punctuation completes the token before it. -/
theorem Holds.step {s : Scanner} {ts : List Token} (h : s.Holds ts) {c : Char} {t : Token}
    (hc : Token.ofPunctuation? c = some t) : s.step c = some ⟨.blank, t :: ts⟩ := by
  obtain ⟨hnumber, hlower, hbegin⟩ := begin_of_punctuation hc ts
  cases h with
  | blank => exact hbegin
  | number numeral ts =>
    rw [Scanner.step]
    simp only [hnumber, Bool.false_eq_true, if_false, Token.ofNumeral?, numeral, if_true]
    exact hbegin
  | word known ts =>
    rw [Scanner.step]
    simp only [hlower, Bool.false_eq_true, if_false, known]
    exact hbegin

theorem Holds.finish {s : Scanner} {ts : List Token} (h : s.Holds ts) :
    s.finish = some ts.reverse := by
  cases h with
  | blank => rfl
  | number numeral ts =>
    rw [Scanner.finish]
    simp only [Token.ofNumeral?, numeral, if_true]
    rfl
  | word known ts =>
    rw [Scanner.finish]
    simp only [known]
    rfl

/-- The scanner takes a text apart into the tokens that it was made of. -/
def Scans (tokens : List Token) : Prop :=
  ∀ ts, ∃ s, (tokens.flatMap Token.chars).foldlM step ⟨.blank, ts⟩ = some s ∧
    s.Holds (tokens.reverse ++ ts)

namespace Scans

variable {tokens tokens' : List Token} {t : Token}

theorem nil : Scans [] :=
  fun ts => ⟨_, rfl, .blank ts⟩

/-- Tokens with punctuation between them are kept apart. -/
theorem append (h : Scans tokens) (ht : Punctuates t) (h' : Scans tokens') :
    Scans (tokens ++ t :: tokens') := by
  intro ts
  obtain ⟨s, hs, hholds⟩ := h ts
  obtain ⟨c, hchars, hc⟩ := ht
  obtain ⟨s', hs', hholds'⟩ := h' (t :: (tokens.reverse ++ ts))
  refine ⟨s', ?_, ?_⟩
  · rw [List.flatMap_append, List.flatMap_cons, hchars, List.foldlM_append, hs,
      Option.bind_eq_bind, Option.bind_some, List.singleton_append, List.foldlM_cons,
      hholds.step hc]
    exact hs'
  · rw [List.reverse_append, List.reverse_cons, List.append_assoc, List.append_assoc]
    exact hholds'

theorem cons (ht : Punctuates t) (h : Scans tokens) : Scans (t :: tokens) :=
  nil.append ht h

theorem concat (h : Scans tokens) (ht : Punctuates t) : Scans (tokens ++ [t]) :=
  h.append ht nil

theorem string {raw : List Char} (hplain : ∀ c ∈ raw, isPlain c = true) :
    Scans [.string raw] := by
  intro ts
  refine ⟨_, ?_, .blank _⟩
  -- Inside the quotes every character is taken as it is.
  have hinside : ∀ before, (raw ++ ['"']).foldlM step ⟨.string before, ts⟩ =
      some ⟨.blank, .string (before.reverse ++ raw) :: ts⟩ := by
    induction raw with
    | nil =>
      intro before
      rw [List.append_nil]
      rfl
    | cons c raw ih =>
      intro before
      have hc := hplain c List.mem_cons_self
      rw [isPlain, Bool.and_eq_true, Bool.and_eq_true, decide_eq_true_iff,
        decide_eq_true_iff, decide_eq_true_iff] at hc
      obtain ⟨⟨hquote, hbackslash⟩, hcode⟩ := hc
      have hstep : step ⟨.string before, ts⟩ c = some ⟨.string (c :: before), ts⟩ := by
        rw [step]
        simp only [if_neg hquote, if_neg hbackslash, if_neg (not_lt.mpr hcode)]
      rw [List.cons_append, List.foldlM_cons, hstep, Option.bind_eq_bind,
        Option.bind_some, ih (fun c hc => hplain c (List.mem_cons_of_mem _ hc)),
        List.reverse_cons, List.append_assoc, List.singleton_append]
  have hchars : [Token.string raw].flatMap Token.chars = '"' :: (raw ++ ['"']) :=
    List.append_nil _
  rw [hchars, List.foldlM_cons]
  exact hinside []

theorem begin_of_isDigit {c : Char} (h : c.isDigit = true) (ts : List Token) :
    begin ts c = some ⟨.number [c], ts⟩ := by
  have hblank : isBlank c = false := by
    rw [Bool.eq_false_iff]
    intro hblank
    simp only [isBlank, Bool.or_eq_true, beq_iff_eq] at hblank
    rcases hblank with ((rfl | rfl) | rfl) | rfl <;> exact absurd h (by decide)
  have hquote : c ≠ '"' := by
    rintro rfl
    exact absurd h (by decide)
  rw [begin, hblank, if_neg Bool.false_ne_true, if_neg hquote, h]
  rfl

/-- Inside a number every digit is taken as it is. -/
theorem number_inside {literal : List Char} (hdigits : ∀ c ∈ literal, c.isDigit = true)
    (before : List Char) (ts : List Token) :
    literal.foldlM step ⟨.number before, ts⟩ =
      some ⟨.number (literal.reverse ++ before), ts⟩ := by
  induction literal generalizing before with
  | nil => rfl
  | cons c literal ih =>
    have hnumber : isNumberChar c = true := by
      rw [isNumberChar, hdigits c List.mem_cons_self]
      rfl
    have hstep : step ⟨.number before, ts⟩ c = some ⟨.number (c :: before), ts⟩ := by
      rw [step]
      simp only [hnumber, if_true]
    rw [List.foldlM_cons, hstep, Option.bind_eq_bind, Option.bind_some,
      ih (fun c hc => hdigits c (List.mem_cons_of_mem _ hc)), List.reverse_cons,
      List.append_assoc, List.singleton_append]

theorem number {literal : List Char} (hnumeral : Token.isNumeral literal = true)
    (hdigits : ∀ c ∈ literal, c.isDigit = true) : Scans [.number literal] := by
  intro ts
  have hchars : [Token.number literal].flatMap Token.chars = literal := List.append_nil _
  rw [hchars]
  cases literal with
  | nil => cases hnumeral
  | cons c literal =>
    have hbegin := begin_of_isDigit (hdigits c List.mem_cons_self) ts
    refine ⟨⟨.number (c :: literal).reverse, ts⟩, ?_, ?_⟩
    · have hrest := number_inside (fun c hc => hdigits c (List.mem_cons_of_mem _ hc)) [c] ts
      rw [List.foldlM_cons, Option.bind_eq_bind, List.reverse_cons]
      change (begin ts c).bind _ = _
      rw [hbegin]
      exact hrest
    · have hlast : Token.isNumeral (c :: literal).reverse.reverse = true := by
        rwa [List.reverse_reverse]
      have hholds := Holds.number hlast ts
      rwa [List.reverse_reverse] at hholds

theorem word {t : Token} (hchars : t.chars ∈ ["null".toList, "true".toList, "false".toList])
    (hknown : Token.ofWord? t.chars = some t) : Scans [t] := by
  intro ts
  refine ⟨⟨.word t.chars.reverse, ts⟩, ?_, ?_⟩
  · have hlist : [t].flatMap Token.chars = t.chars := List.append_nil _
    rw [hlist]
    generalize t.chars = word at hchars
    simp only [List.mem_cons, List.not_mem_nil, or_false] at hchars
    rcases hchars with rfl | rfl | rfl <;> rfl
  · exact Holds.word (by rwa [List.reverse_reverse]) ts

end Scans

end Scanner

/-! ## Values -/

namespace Canonical

open Scanner (Scans Punctuates)

variable {v : Json}

theorem scans_itemTokens {items : List Json} (h : ∀ v ∈ items, Scans v.tokens) :
    Scans (itemTokens items) := by
  induction items with
  | nil => exact .nil
  | cons v items ih =>
    have hv := h v List.mem_cons_self
    have hitems := ih fun w hw => h w (List.mem_cons_of_mem _ hw)
    cases items with
    | nil => exact hv
    | cons w items => exact hv.append ⟨_, rfl, rfl⟩ hitems

theorem scans_memberTokens {members : List (List Char × Json)}
    (hnames : ∀ m ∈ members, ∀ c ∈ m.1, isPlain c = true)
    (hvalues : ∀ m ∈ members, Scans m.2.tokens) : Scans (memberTokens members) := by
  induction members with
  | nil => exact .nil
  | cons m members ih =>
    have hm : Scans (.string m.1 :: .colon :: m.2.tokens) :=
      (Scans.string (hnames m List.mem_cons_self)).append ⟨_, rfl, rfl⟩
        (hvalues m List.mem_cons_self)
    have hmembers := ih (fun m' hm' => hnames m' (List.mem_cons_of_mem _ hm'))
      fun m' hm' => hvalues m' (List.mem_cons_of_mem _ hm')
    cases members with
    | nil => exact hm
    | cons m' members => exact hm.append ⟨_, rfl, rfl⟩ hmembers

/-- The text of a canonical value is taken apart into its tokens. -/
theorem scans (h : v.Canonical) : Scans v.tokens := by
  induction h with
  | null => exact .word (by decide) rfl
  | bool b => cases b <;> exact .word (by decide) rfl
  | number numeral digits => exact .number numeral digits
  | string plain => exact .string plain
  | array _ ih =>
    have hitems := scans_itemTokens ih
    exact (hitems.cons ⟨_, rfl, rfl⟩).concat ⟨_, rfl, rfl⟩
  | object names_plain _ ih =>
    have hmembers := scans_memberTokens names_plain ih
    exact (hmembers.cons ⟨_, rfl, rfl⟩).concat ⟨_, rfl, rfl⟩

end Canonical

/-- The reader puts the tokens of a value together to the value. -/
def Reads (v : Json) : Prop :=
  ∀ stack, v.tokens.foldlM Reader.step (.value stack) = some (.complete v stack)

theorem head_tokens (v : Json) :
    ∃ t ts, v.tokens = t :: ts ∧ t ≠ .closeBracket := by
  cases v <;> exact ⟨_, _, rfl, by rintro ⟨⟩⟩

/-- The first item of an array is read like any other. -/
theorem foldlM_firstItem (v : Json) (stack : List Container) (ts : List Token) :
    (v.tokens ++ ts).foldlM Reader.step (.firstItem stack) =
      (v.tokens ++ ts).foldlM Reader.step (.value (.array [] :: stack)) := by
  obtain ⟨t, ts', htokens, hne⟩ := v.head_tokens
  rw [htokens, List.cons_append, List.foldlM_cons, List.foldlM_cons]
  congr 1
  cases t with
  | closeBracket => exact absurd rfl hne
  | _ => rfl

theorem Reads.foldlM_append {v : Json} (h : v.Reads) (stack : List Container)
    (ts : List Token) :
    (v.tokens ++ ts).foldlM Reader.step (.value stack) =
      ts.foldlM Reader.step (.complete v stack) := by
  rw [List.foldlM_append, h stack]
  rfl

theorem foldlM_itemTokens {items : List Json} (h : ∀ v ∈ items, v.Reads) {v : Json}
    (hv : v.Reads) (before : List Json) (stack : List Container) :
    (itemTokens (v :: items) ++ [Token.closeBracket]).foldlM Reader.step
        (.value (.array before :: stack)) =
      some (.complete (.array (before.reverse ++ v :: items)) stack) := by
  induction items generalizing v before with
  | nil =>
    rw [itemTokens, hv.foldlM_append]
    have hclose : Reader.step (.complete v (.array before :: stack)) Token.closeBracket =
      some (.complete (.array (v :: before).reverse) stack) := rfl
    rw [List.foldlM_cons, hclose, List.reverse_cons]
    rfl
  | cons w items ih =>
    have hnext := ih (fun u hu => h u (List.mem_cons_of_mem _ hu))
      (h w List.mem_cons_self) (v :: before)
    rw [itemTokens, List.append_assoc, hv.foldlM_append, List.cons_append,
      List.foldlM_cons]
    rw [List.reverse_cons, List.append_assoc] at hnext
    exact hnext

/-- The reader behind the name of a member. -/
theorem Reads.foldlM_member {v : Json} (h : v.Reads) (name : List Char)
    (before : List (List Char × Json)) (stack : List Container) (ts : List Token) :
    (.string name :: .colon :: (v.tokens ++ ts)).foldlM Reader.step
        (.nextName before stack) =
      ts.foldlM Reader.step (.complete v (.object before name :: stack)) := by
  have hname : Reader.step (.nextName before stack) (.string name) =
    some (.colon before name stack) := rfl
  have hcolon : Reader.step (.colon before name stack) .colon =
    some (.value (.object before name :: stack)) := rfl
  rw [List.foldlM_cons, hname, Option.bind_eq_bind, Option.bind_some, List.foldlM_cons,
    hcolon, Option.bind_eq_bind, Option.bind_some, h.foldlM_append]

theorem foldlM_memberTokens {members : List (List Char × Json)}
    (h : ∀ m ∈ members, m.2.Reads) {m : List Char × Json} (hm : m.2.Reads)
    (before : List (List Char × Json)) (stack : List Container) :
    (memberTokens (m :: members) ++ [Token.closeBrace]).foldlM Reader.step
        (.nextName before stack) =
      some (.complete (.object (before.reverse ++ m :: members)) stack) := by
  induction members generalizing m before with
  | nil =>
    obtain ⟨name, v⟩ := m
    rw [memberTokens, List.cons_append, List.cons_append, hm.foldlM_member]
    have hclose : Reader.step (.complete v (.object before name :: stack))
      Token.closeBrace = some (.complete (.object ((name, v) :: before).reverse) stack) :=
        rfl
    rw [List.foldlM_cons, hclose, List.reverse_cons]
    rfl
  | cons m' members ih =>
    obtain ⟨name, v⟩ := m
    have hnext := ih (fun u hu => h u (List.mem_cons_of_mem _ hu))
      (h m' List.mem_cons_self) ((name, v) :: before)
    rw [List.reverse_cons, List.append_assoc] at hnext
    rw [memberTokens, List.cons_append, List.cons_append, List.append_assoc,
      hm.foldlM_member, List.cons_append, List.foldlM_cons]
    exact hnext

/-- A canonical value is put together from its tokens. -/
theorem Canonical.reads {v : Json} (h : v.Canonical) : v.Reads := by
  induction h with
  | null => exact fun stack => rfl
  | bool b => exact fun stack => rfl
  | number numeral digits => exact fun stack => rfl
  | string plain => exact fun stack => rfl
  | @array items _ ih =>
    intro stack
    cases items with
    | nil => rfl
    | cons v items =>
      have hv := ih v List.mem_cons_self
      have hitems := foldlM_itemTokens (fun w hw => ih w (List.mem_cons_of_mem _ hw)) hv
        [] stack
      rw [tokens, List.cons_append, List.foldlM_cons]
      change (itemTokens (v :: items) ++ [Token.closeBracket]).foldlM Reader.step
        (.firstItem stack) = _
      rw [List.reverse_nil, List.nil_append] at hitems
      rw [← hitems]
      cases items with
      | nil => exact foldlM_firstItem v stack _
      | cons w items =>
        rw [itemTokens, List.append_assoc]
        exact foldlM_firstItem v stack _
  | @object members _ _ ih =>
    intro stack
    cases members with
    | nil => rfl
    | cons m members =>
      have hm := ih m List.mem_cons_self
      have hmembers := foldlM_memberTokens
        (fun w hw => ih w (List.mem_cons_of_mem _ hw)) hm [] stack
      rw [List.reverse_nil, List.nil_append] at hmembers
      rw [tokens, List.cons_append, List.foldlM_cons, ← hmembers]
      -- The first name is read like any other.
      obtain ⟨name, v⟩ := m
      cases members with
      | nil => rfl
      | cons m' members => rfl

theorem Canonical.parse?_render {v : Json} (h : v.Canonical) : parse? v.render = some v := by
  obtain ⟨s, hs, hholds⟩ := h.scans []
  rw [parse?, render, String.toList_ofList, Scanner.scan?, hs, Option.bind_some,
    hholds.finish, List.append_nil, List.reverse_reverse, Option.bind_some, ofTokens?,
    h.reads []]
  rfl

/-! ## Numbers and names -/

theorem isDigit_of_mem_toDigits {k : Nat} {c : Char} (hc : c ∈ Nat.toDigits 10 k) :
    c.isDigit = true :=
  Nat.isDigit_of_mem_toDigits (by decide) (by decide) hc

/-- The digits of a number other than zero do not begin with a zero. -/
theorem head?_toDigits_ne {k : Nat} (hk : k ≠ 0) :
    (Nat.toDigits 10 k).head? ≠ some '0' := by
  induction k using Nat.strongRecOn with
  | _ k ih =>
    by_cases hlt : k < 10
    · rw [Nat.toDigits_of_lt_base hlt]
      interval_cases k
      · exact absurd rfl hk
      all_goals decide
    · have hrest := ih (k / 10) (by omega) (by omega)
      rwa [Nat.toDigits_of_base_le (by decide) (not_lt.mp hlt),
        List.head?_append_of_ne_nil _ Nat.toDigits_ne_nil]

theorem isNumeral_toDigits (k : Nat) : Token.isNumeral (Nat.toDigits 10 k) = true := by
  have hsign : (Nat.toDigits 10 k).head? ≠ some '-' := by
    intro hhead
    exact absurd (isDigit_of_mem_toDigits (List.mem_of_head? hhead)) (by decide)
  have htake : (Nat.toDigits 10 k).takeWhile Char.isDigit = Nat.toDigits 10 k :=
    List.takeWhile_eq_self_iff.mpr fun c hc => isDigit_of_mem_toDigits hc
  have hdrop : (Nat.toDigits 10 k).dropWhile Char.isDigit = [] :=
    List.dropWhile_eq_nil_iff.mpr fun c hc => isDigit_of_mem_toDigits hc
  have hdigits : Token.isDigits (Nat.toDigits 10 k) = true := by
    rw [Token.isDigits, Bool.and_eq_true, Bool.not_eq_true', List.isEmpty_eq_false_iff,
      List.all_eq_true]
    exact ⟨Nat.toDigits_ne_nil, fun c hc => isDigit_of_mem_toDigits hc⟩
  have hinteger : Token.isIntegerPart (Nat.toDigits 10 k) = true := by
    rw [Token.isIntegerPart, hdigits, Bool.true_and, Bool.or_eq_true, beq_iff_eq, bne_iff_ne]
    by_cases hk : k = 0
    · subst hk
      exact Or.inl rfl
    · exact Or.inr (head?_toDigits_ne hk)
  rw [Token.isNumeral]
  simp only [if_neg hsign, htake, hdrop, hinteger, Bool.true_and]
  rfl

theorem canonical_ofNat (k : Nat) : (ofNat k).Canonical :=
  .number (isNumeral_toDigits k) fun _ hc => isDigit_of_mem_toDigits hc

theorem toNat?_ofNat (k : Nat) : (ofNat k).toNat? = some k := by
  have hdigits : (Nat.toDigits 10 k).all Char.isDigit = true :=
    List.all_eq_true.mpr fun c hc => isDigit_of_mem_toDigits hc
  rw [ofNat, toNat?, if_pos hdigits, Nat.ofDigitChars_ten_toDigits]

namespace Text

theorem unescape?_of_plain {raw : List Char} (h : ∀ c ∈ raw, isPlain c = true) :
    unescape? raw = some raw := by
  have hpieces : pieces? raw = some (raw.map .char) := by
    induction raw with
    | nil => rfl
    | cons c raw ih =>
      have hc : c ≠ '\\' := by
        rintro rfl
        exact absurd (h _ List.mem_cons_self) (by decide)
      have hraw := ih fun c' hc' => h c' (List.mem_cons_of_mem _ hc')
      rw [pieces?]
      · rw [if_neg hc, hraw]
        rfl
      · rintro _ _ _ _ _ rfl
        exact absurd rfl hc
      · rintro _ _ rfl
        exact absurd rfl hc
  have hcharacters : ∀ cs : List Char, characters? (cs.map .char) = some cs := by
    intro cs
    induction cs with
    | nil => rfl
    | cons c cs ih =>
      rw [List.map_cons, characters?, ih]
      rfl
  rw [unescape?, hpieces, Option.bind_some, hcharacters]

end Text

end Quorum.Json
