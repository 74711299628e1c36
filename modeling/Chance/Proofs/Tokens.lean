import Chance.Proofs.Grammar

/-!
# Reading strings and numbers

What the reader takes for a string or a number is the longest front of the text that the grammar
has for one, and its value is the one the grammar gives.  Each rule has two lemmas: what is read
has a text (`…_sound`), and every text is read, whatever follows it (`…_complete`); after a number
there must not be a character that would belong to it (`NoDigit`, `NoPart`).  Both hold of texts
that are used and of texts that are passed over, each read with its own rules (`Care.rules`).

* `stringRest_sound`, `stringRest_complete`   strings, after their opening quote;
* `number_sound`, `number_eq`, `number_complete`   numbers.
-/

namespace Chance
namespace Json
namespace Grammar

open Reader

/-- the rules with which a text is read -/
def Care.rules : Care → Rules
  | .exact => .strict
  | .loose => .skimmed

theorem Care.bounded_rules {k : Care} : k.rules.bounded = true ↔ k = .exact := by
  cases k <;> decide

variable {k : Care} {rules : Rules}

/-! ## Blanks -/

theorem blanks_nil : Blanks [] := by
  intro c h
  cases h

theorem skipBlank_append {a : List Char} (ha : Blanks a) (cs : List Char) :
    skipBlank (a ++ cs) = skipBlank cs := by
  induction a with
  | nil => rfl
  | cons c a ih =>
    have hc := ha c List.mem_cons_self
    rw [List.cons_append, skipBlank_cons_of_isBlank hc]
    exact ih fun x hx => ha x (List.mem_cons_of_mem c hx)

/-- what is skipped are blanks -/
theorem exists_blanks (cs : List Char) : ∃ a, Blanks a ∧ cs = a ++ skipBlank cs := by
  refine ⟨cs.takeWhile isBlank, ?_, (List.takeWhile_append_dropWhile (p := isBlank)).symm⟩
  intro c hc
  exact List.mem_takeWhile_imp hc

theorem token_sound {t : Char} {cs rest : List Char} (h : token t cs = .ok rest) :
    ∃ a, Blanks a ∧ cs = a ++ t :: rest := by
  obtain ⟨a, ha, split⟩ := exists_blanks cs
  unfold token at h
  split at h
  · cases h
  · next c r hc =>
    split at h
    · next same =>
      cases h
      refine ⟨a, ha, ?_⟩
      rw [split, hc, same]
    · cases h

theorem token_complete {t : Char} (ht : isBlank t = false) {a : List Char} (ha : Blanks a)
    (rest : List Char) : token t (a ++ t :: rest) = .ok rest := by
  unfold token
  rw [skipBlank_append ha, skipBlank_cons_of_not_isBlank ht]
  simp

/-! ## Escapes -/

theorem hexFour_sound {cs rest : List Char} {n : Nat} (h : hexFour cs = .ok (n, rest)) :
    ∃ ds, UnitText n ds ∧ cs = ds ++ rest := by
  unfold hexFour at h
  split at h
  · next a b c d r =>
    split at h
    · next i j k l ha hb hc hd =>
      cases h
      exact ⟨[a, b, c, d], .four ha hb hc hd, rfl⟩
    · cases h
  · split at h <;> cases h

theorem hexFour_complete {n : Nat} {ds : List Char} (h : UnitText n ds) (rest : List Char) :
    hexFour (ds ++ rest) = .ok (n, rest) := by
  cases h with
  | four ha hb hc hd =>
    show hexFour (_ :: _ :: _ :: _ :: rest) = _
    simp only [hexFour, ha, hb, hc, hd]

theorem lowSurrogate_sound {high : Nat} {c : Char} {cs rest : List Char}
    (h : lowSurrogate high cs = .ok (c, rest)) :
    ∃ n es, UnitText n es ∧ isLowSurrogate n = true ∧ c = ofSurrogates high n ∧
      cs = '\\' :: 'u' :: (es ++ rest) := by
  unfold lowSurrogate at h
  split at h
  · cases h
  · cases h
  · next r =>
    split at h
    · cases h
    · next n r' hn =>
      split at h
      · next low =>
        obtain ⟨hc, hr⟩ := Prod.mk.inj (Except.ok.inj h)
        obtain ⟨es, hes, rfl⟩ := hexFour_sound hn
        exact ⟨n, es, hes, low, hc.symm, by rw [hr]⟩
      · cases h
  · cases h

theorem lowSurrogate_complete (high : Nat) {n : Nat} {es : List Char} (h : UnitText n es)
    (low : isLowSurrogate n = true) (rest : List Char) :
    lowSurrogate high ('\\' :: 'u' :: (es ++ rest)) = .ok (ofSurrogates high n, rest) := by
  simp only [lowSurrogate, hexFour_complete h, low, if_true]

theorem numericEscape_sound {c : Char} {cs rest : List Char}
    (h : numericEscape k.rules cs = .ok (c, rest)) :
    ∃ t, CharText k c ('\\' :: 'u' :: t) ∧ cs = t ++ rest := by
  unfold numericEscape at h
  split at h
  · cases h
  · next n r hn =>
    obtain ⟨ds, hds, rfl⟩ := hexFour_sound hn
    cases k with
    | loose =>
      cases h
      exact ⟨ds, .unit hds nofun, rfl⟩
    | exact =>
      simp only [Care.rules, Rules.strict, Bool.true_and] at h
      split at h
      · cases h
      · next notLow =>
        split at h
        · next high =>
          obtain ⟨m, es, hes, low, hc, hr⟩ := lowSurrogate_sound h
          refine ⟨ds ++ '\\' :: 'u' :: es, ?_, by rw [hr]; simp⟩
          rw [hc]
          exact .pair rfl hds hes high low
        · next notHigh =>
          cases h
          exact ⟨ds, .unit hds fun _ => ⟨by simpa using notHigh, by simpa using notLow⟩, rfl⟩

theorem escape_sound {c : Char} {cs rest : List Char} (h : escape k.rules cs = .ok (c, rest)) :
    ∃ t, CharText k c ('\\' :: t) ∧ cs = t ++ rest := by
  unfold escape at h
  split at h
  · cases h
  · cases h; exact ⟨['"'], .short (by decide), rfl⟩
  · cases h; exact ⟨['\\'], .short (by decide), rfl⟩
  · cases h; exact ⟨['/'], .short (by decide), rfl⟩
  · cases h; exact ⟨['b'], .short (by decide), rfl⟩
  · cases h; exact ⟨['f'], .short (by decide), rfl⟩
  · cases h; exact ⟨['n'], .short (by decide), rfl⟩
  · cases h; exact ⟨['r'], .short (by decide), rfl⟩
  · cases h; exact ⟨['t'], .short (by decide), rfl⟩
  · obtain ⟨t, ht, rfl⟩ := numericEscape_sound h
    exact ⟨'u' :: t, ht, rfl⟩
  · cases h

theorem short_complete {letter c : Char} (h : (letter, c) ∈ shortEscapes) (rest : List Char) :
    escape k.rules (letter :: rest) = .ok (c, rest) := by
  simp only [shortEscapes, List.mem_cons, Prod.mk.injEq, List.not_mem_nil, or_false] at h
  rcases h with ⟨rfl, rfl⟩ | ⟨rfl, rfl⟩ | ⟨rfl, rfl⟩ | ⟨rfl, rfl⟩ | ⟨rfl, rfl⟩ | ⟨rfl, rfl⟩ |
    ⟨rfl, rfl⟩ | ⟨rfl, rfl⟩ <;> rfl

theorem not_low_of_high {n : Nat} (h : isHighSurrogate n = true) : isLowSurrogate n = false := by
  simp only [isHighSurrogate, isLowSurrogate, decide_eq_true_eq, decide_eq_false_iff_not] at h ⊢
  omega

/-- an escape is read whole -/
theorem escape_complete {c : Char} {t : List Char} (h : CharText k c ('\\' :: t))
    (rest : List Char) : escape k.rules (t ++ rest) = .ok (c, rest) := by
  generalize ht : '\\' :: t = text at h
  cases h with
  | raw control quote backslash =>
    cases ht
    exact absurd rfl backslash
  | short h =>
    cases ht
    exact short_complete h rest
  | unit h alone =>
    cases ht
    show numericEscape k.rules (_ ++ rest) = _
    cases k with
    | loose => simp [numericEscape, hexFour_complete h, Care.rules, Rules.skimmed]
    | exact =>
      obtain ⟨high, low⟩ := alone rfl
      simp [numericEscape, hexFour_complete h, high, low]
  | pair care hm hn high low =>
    cases ht
    subst care
    show numericEscape .strict ((_ ++ '\\' :: 'u' :: _) ++ rest) = _
    rw [List.append_assoc]
    simp only [numericEscape, hexFour_complete hm, Rules.strict, not_low_of_high high, high,
      Bool.and_false, Bool.and_true, if_true, Bool.false_eq_true, if_false]
    exact lowSurrogate_complete _ hn low rest

/-! ## Strings -/

theorem CharText.cases_raw {c : Char} {cs : List Char} (h : CharText k c cs) :
    (32 ≤ c.toNat ∧ c ≠ '"' ∧ c ≠ '\\' ∧ cs = [c]) ∨ ∃ t, cs = '\\' :: t := by
  cases h with
  | raw control quote backslash => exact .inl ⟨control, quote, backslash, rfl⟩
  | short h => exact .inr ⟨_, rfl⟩
  | unit h alone => exact .inr ⟨_, rfl⟩
  | pair care hm hn high low => exact .inr ⟨_, rfl⟩

theorem stringChars_sound {fuel cs s rest : List Char}
    (h : stringChars k.rules fuel cs = .ok (s, rest)) :
    ∃ t, CharsText k s t ∧ cs = t ++ '"' :: rest := by
  induction fuel generalizing cs s with
  | nil => cases h
  | cons _ fuel ih =>
    cases cs with
    | nil => cases h
    | cons c cs =>
      simp only [stringChars] at h
      split at h
      · next quote =>
        cases h
        exact ⟨[], .nil, by rw [quote]; rfl⟩
      · next quote =>
        split at h
        · next backslash =>
          split at h
          · cases h
          · next d r hd =>
            split at h
            · cases h
            · next s' r' hs =>
              cases h
              obtain ⟨t, ht, rfl⟩ := escape_sound hd
              obtain ⟨ts, hts, rfl⟩ := ih hs
              exact ⟨'\\' :: t ++ ts, .cons ht hts, by simp [backslash]⟩
        · next backslash =>
          split at h
          · cases h
          · next control =>
            split at h
            · cases h
            · next s' r' hs =>
              cases h
              obtain ⟨ts, hts, rfl⟩ := ih hs
              exact ⟨[c] ++ ts, .cons (.raw (by omega) quote backslash) hts, rfl⟩

/-- every step of the reader takes one character of the string -/
theorem stringChars_complete {s t : List Char} (h : CharsText k s t) {fuel : List Char}
    (long : s.length < fuel.length) (rest : List Char) :
    stringChars k.rules fuel (t ++ '"' :: rest) = .ok (s, rest) := by
  induction h generalizing fuel with
  | nil =>
    obtain ⟨_, fuel, rfl⟩ := List.exists_cons_of_length_pos (Nat.zero_lt_of_lt long)
    simp [stringChars]
  | @cons c s cs ds hc hs ih =>
    obtain ⟨_, fuel, rfl⟩ := List.exists_cons_of_length_pos (Nat.zero_lt_of_lt long)
    have next := @ih fuel (by simp only [List.length_cons] at long; omega)
    rcases hc.cases_raw with ⟨control, quote, backslash, rfl⟩ | ⟨t, rfl⟩
    · show stringChars k.rules (_ :: fuel) (c :: (ds ++ '"' :: rest)) = _
      simp only [stringChars, quote, backslash, if_false, Nat.not_lt.mpr control, next]
    · have read := escape_complete hc (ds ++ '"' :: rest)
      show stringChars k.rules (_ :: fuel) ('\\' :: ((t ++ ds) ++ '"' :: rest)) = _
      rw [List.append_assoc]
      simp [stringChars, read, next]

theorem length_le_of_charsText {s t : List Char} (h : CharsText k s t) : s.length ≤ t.length := by
  induction h with
  | nil => exact Nat.le_refl 0
  | @cons c s cs ds hc hs ih =>
    have one : 1 ≤ cs.length := by
      rcases hc.cases_raw with ⟨-, -, -, rfl⟩ | ⟨t, rfl⟩ <;> simp
    simp only [List.length_cons, List.length_append]
    omega

theorem stringRest_sound {cs rest : List Char} {s : String}
    (h : stringRest k.rules cs = .ok (s, rest)) :
    ∃ t, StringText k s ('"' :: (t ++ ['"'])) ∧ cs = t ++ '"' :: rest := by
  unfold stringRest at h
  split at h
  · cases h
  · next s' r hs =>
    cases h
    obtain ⟨t, ht, rfl⟩ := stringChars_sound hs
    exact ⟨t, .quoted ht, rfl⟩

theorem stringRest_complete {s : String} {t : List Char} (h : StringText k s ('"' :: t))
    (rest : List Char) : stringRest k.rules (t ++ rest) = .ok (s, rest) := by
  cases h with
  | @quoted s cs h =>
    have long : s.length < (cs ++ '"' :: rest).length := by
      have := length_le_of_charsText h
      rw [List.length_append, List.length_cons]
      omega
    have read := stringChars_complete h long rest
    rw [List.append_assoc]
    show stringRest k.rules (cs ++ '"' :: rest) = _
    simp only [stringRest, read]

theorem memberKey_sound {cs rest : List Char} {key : String}
    (h : memberKey k.rules cs = .ok (key, rest)) :
    ∃ a t, Blanks a ∧ StringText k key t ∧ cs = a ++ (t ++ rest) := by
  unfold memberKey at h
  split at h
  · cases h
  · next r hr =>
    obtain ⟨a, ha, rfl⟩ := token_sound hr
    obtain ⟨t, ht, rfl⟩ := stringRest_sound h
    exact ⟨a, _, ha, ht, by simp⟩

theorem memberKey_complete {key : String} {a t : List Char} (ha : Blanks a)
    (h : StringText k key t) (rest : List Char) :
    memberKey k.rules (a ++ (t ++ rest)) = .ok (key, rest) := by
  obtain ⟨u, rfl⟩ : ∃ u, t = '"' :: u := by
    cases h
    exact ⟨_, rfl⟩
  unfold memberKey
  rw [List.cons_append, token_complete (by decide) ha]
  exact stringRest_complete h rest

/-! ## Numbers -/

/-- no digit comes first -/
def NoDigit (cs : List Char) : Prop := ∀ c ∈ cs.head?, c.isDigit = false

/-- nothing comes first that would go on with a number -/
def NoPart (cs : List Char) : Prop :=
  ∀ c ∈ cs.head?, c.isDigit = false ∧ c ≠ '.' ∧ c ≠ 'e' ∧ c ≠ 'E'

theorem NoPart.noDigit {cs : List Char} (h : NoPart cs) : NoDigit cs :=
  fun c hc => (h c hc).1

theorem digitRun_sound {cs ds rest : List Char} (h : digitRun rules cs = .ok (ds, rest)) :
    Digits ds ∧ cs = ds ++ rest := by
  unfold digitRun at h
  split at h
  · cases h
  · next c cs =>
    split at h
    · next hc =>
      cases h
      have split := (List.takeWhile_append_dropWhile (p := Char.isDigit) (l := c :: cs)).symm
      exact ⟨⟨by simp [hc], fun d hd => List.mem_takeWhile_imp hd⟩, split⟩
    · cases h

theorem span_digits {ds rest : List Char} (h : ∀ d ∈ ds, d.isDigit = true) (stop : NoDigit rest) :
    (ds ++ rest).takeWhile Char.isDigit = ds ∧ (ds ++ rest).dropWhile Char.isDigit = rest := by
  rw [List.takeWhile_append_of_pos h, List.dropWhile_append_of_pos h]
  cases rest with
  | nil => exact ⟨List.append_nil ds, rfl⟩
  | cons c rest =>
    have hc : c.isDigit = false := stop c rfl
    simp [hc]

theorem digitRun_complete {ds rest : List Char} (h : Digits ds) (stop : NoDigit rest) :
    digitRun rules (ds ++ rest) = .ok (ds, rest) := by
  obtain ⟨taken, dropped⟩ := span_digits h.2 stop
  cases ds with
  | nil => exact absurd rfl h.1
  | cons d ds =>
    have hd := h.2 d List.mem_cons_self
    rw [List.cons_append] at taken dropped ⊢
    simp only [digitRun, hd, if_true, taken, dropped]

theorem wholeDigits_sound {cs ds rest : List Char} (h : wholeDigits rules cs = .ok (ds, rest)) :
    Whole ds ∧ cs = ds ++ rest := by
  unfold wholeDigits at h
  split at h
  · cases h
  · cases h
  · next ds' r long hr =>
    cases h
    obtain ⟨digits, rfl⟩ := digitRun_sound hr
    refine ⟨⟨digits, ?_⟩, rfl⟩
    intro zero
    obtain ⟨more, rfl⟩ := List.head?_eq_some_iff.mp zero
    cases more with
    | nil => rfl
    | cons d more => exact absurd rfl (long d more)

theorem wholeDigits_complete {ds rest : List Char} (h : Whole ds) (stop : NoDigit rest) :
    wholeDigits rules (ds ++ rest) = .ok (ds, rest) := by
  unfold wholeDigits
  rw [digitRun_complete h.1 stop]
  split
  · next hr => cases hr
  · next d more _ hr =>
    obtain ⟨rfl, -⟩ := Prod.mk.inj (Except.ok.inj hr)
    cases h.2 rfl
  · next hr =>
    cases hr
    rfl

theorem fractionDigits_sound {cs rest : List Char} {fraction : Option (List Char)}
    (h : fractionDigits rules cs = .ok (fraction, rest)) :
    ∃ t, FractionText fraction t ∧ cs = t ++ rest := by
  unfold fractionDigits at h
  split at h
  · split at h
    · cases h
    · next ds r hr =>
      cases h
      obtain ⟨digits, rfl⟩ := digitRun_sound hr
      exact ⟨'.' :: ds, .present digits, rfl⟩
  · cases h
    exact ⟨[], .absent, rfl⟩

theorem fractionDigits_complete {fraction : Option (List Char)} {t rest : List Char}
    (h : FractionText fraction t) (stop : NoDigit rest) (point : ∀ c ∈ rest.head?, c ≠ '.') :
    fractionDigits rules (t ++ rest) = .ok (fraction, rest) := by
  cases h with
  | absent =>
    rw [List.nil_append]
    unfold fractionDigits
    split
    · exact absurd rfl (point '.' rfl)
    · rfl
  | present digits =>
    rw [List.cons_append]
    simp only [fractionDigits, digitRun_complete digits stop]

theorem signedExponent_sound {cs rest : List Char} {e : Int} {letter : Char}
    (hl : letter = 'e' ∨ letter = 'E') (h : signedExponent rules cs = .ok (e, rest)) :
    ∃ t, ExponentText (some e) (letter :: t) ∧ cs = t ++ rest := by
  unfold signedExponent at h
  split at h
  · split at h
    · cases h
    · next ds r hr =>
      cases h
      obtain ⟨digits, rfl⟩ := digitRun_sound hr
      exact ⟨'-' :: ds, .minus hl digits, rfl⟩
  · split at h
    · cases h
    · next ds r hr =>
      cases h
      obtain ⟨digits, rfl⟩ := digitRun_sound hr
      exact ⟨'+' :: ds, .plus hl digits, rfl⟩
  · split at h
    · cases h
    · next ds r hr =>
      cases h
      obtain ⟨digits, rfl⟩ := digitRun_sound hr
      exact ⟨ds, .bare hl digits, rfl⟩

theorem exponentPart_sound {cs rest : List Char} {exponent : Option Int}
    (h : exponentPart rules cs = .ok (exponent, rest)) :
    ∃ t, ExponentText exponent t ∧ cs = t ++ rest := by
  unfold exponentPart at h
  split at h
  · next c cs =>
    split at h
    · next letter =>
      split at h
      · cases h
      · next e r hr =>
        cases h
        obtain ⟨t, ht, rfl⟩ := signedExponent_sound letter hr
        exact ⟨c :: t, ht, rfl⟩
    · cases h
      exact ⟨[], .absent, rfl⟩
  · cases h
    exact ⟨[], .absent, rfl⟩

theorem exponentPart_complete {exponent : Option Int} {t rest : List Char}
    (h : ExponentText exponent t) (stop : NoPart rest) :
    exponentPart rules (t ++ rest) = .ok (exponent, rest) := by
  cases h with
  | absent =>
    rw [List.nil_append]
    cases rest with
    | nil => rfl
    | cons c rest =>
      obtain ⟨-, -, small, capital⟩ := stop c rfl
      simp [exponentPart, small, capital]
  | @bare e ds letter digits =>
    have read : digitRun rules (ds ++ rest) = .ok (ds, rest) :=
      digitRun_complete digits stop.noDigit
    obtain ⟨nonempty, all⟩ := digits
    cases ds with
    | nil => exact absurd rfl nonempty
    | cons d ds =>
      have hd := all d List.mem_cons_self
      have signed : signedExponent rules (d :: ds ++ rest) =
          .ok ((Nat.ofDigitChars 10 (d :: ds) 0 : Int), rest) := by
        unfold signedExponent
        split
        · next same =>
          cases same
          exact absurd hd (by decide)
        · next same =>
          cases same
          exact absurd hd (by decide)
        · rw [read]
      show exponentPart rules (e :: (d :: ds ++ rest)) = _
      simp only [exponentPart, letter, if_true, signed]
  | @plus e ds letter digits =>
    show exponentPart rules (e :: '+' :: (ds ++ rest)) = _
    simp only [exponentPart, letter, if_true, signedExponent,
      digitRun_complete digits stop.noDigit]
  | @minus e ds letter digits =>
    show exponentPart rules (e :: '-' :: (ds ++ rest)) = _
    simp only [exponentPart, letter, if_true, signedExponent,
      digitRun_complete digits stop.noDigit]

/-- no part of a number starts like another one -/
theorem ExponentText.head {exponent : Option Int} {t rest : List Char}
    (h : ExponentText exponent t) (stop : NoPart rest) :
    NoDigit (t ++ rest) ∧ ∀ c ∈ (t ++ rest).head?, c ≠ '.' := by
  have letter_first {e : Char} (letter : e = 'e' ∨ e = 'E') (ds : List Char) :
      NoDigit (e :: ds) ∧ ∀ c ∈ (e :: ds).head?, c ≠ '.' := by
    refine ⟨fun c hc => ?_, fun c hc => ?_⟩ <;>
    · cases hc
      rcases letter with rfl | rfl <;> decide
  cases h with
  | absent => exact ⟨stop.noDigit, fun c hc => (stop c hc).2.1⟩
  | bare letter _ => exact letter_first letter _
  | plus letter _ => exact letter_first letter _
  | minus letter _ => exact letter_first letter _

theorem FractionText.head {fraction : Option (List Char)} {t rest : List Char}
    (h : FractionText fraction t) (stop : NoDigit rest) : NoDigit (t ++ rest) := by
  cases h with
  | absent => exact stop
  | present _ =>
    intro c hc
    cases hc
    decide

theorem unsignedNumber_sound {negative : Bool} {cs rest : List Char} {n : Number}
    (h : unsignedNumber rules negative cs = .ok (n, rest)) :
    ∃ whole fraction exponent t, UnsignedText whole fraction exponent t ∧ cs = t ++ rest ∧
      n = Reader.numberOf negative whole fraction exponent ∧
      (rules.bounded = true → n.inRange = true) := by
  unfold unsignedNumber at h
  split at h
  · cases h
  · next whole r₁ hw =>
    split at h
    · cases h
    · next fraction r₂ hf =>
      split at h
      · cases h
      · next exponent r₃ he =>
        obtain ⟨digits, rfl⟩ := wholeDigits_sound hw
        obtain ⟨fs, hfs, rfl⟩ := fractionDigits_sound hf
        obtain ⟨es, hes, rfl⟩ := exponentPart_sound he
        dsimp only at h
        split at h
        · cases h
        · next range =>
          obtain ⟨hn, hr⟩ := Prod.mk.inj (Except.ok.inj h)
          refine ⟨whole, fraction, exponent, _, .parts digits hfs hes, ?_, hn.symm, ?_⟩
          · rw [hr]
            simp
          · intro bounded
            rw [← hn]
            simpa [bounded] using range

/-- the text of a number is read to its end, and refused where it is out of range -/
theorem unsignedNumber_eq {negative : Bool} {whole t rest : List Char}
    {fraction : Option (List Char)} {exponent : Option Int}
    (h : UnsignedText whole fraction exponent t) (stop : NoPart rest) :
    unsignedNumber rules negative (t ++ rest) =
      if rules.bounded && !(Reader.numberOf negative whole fraction exponent).inRange then
        .error .malformed
      else .ok (Reader.numberOf negative whole fraction exponent, rest) := by
  cases h with
  | parts hw hf he =>
    obtain ⟨noDigit, noPoint⟩ := he.head stop
    have first : wholeDigits rules _ = _ := wholeDigits_complete hw (hf.head noDigit)
    have second : fractionDigits rules _ = _ := fractionDigits_complete hf noDigit noPoint
    have third : exponentPart rules _ = _ := exponentPart_complete he stop
    rw [List.append_assoc, List.append_assoc]
    simp only [unsignedNumber, first, second, third]

theorem number_sound {cs rest : List Char} {n : Number}
    (h : Reader.number rules cs = .ok (n, rest)) :
    ∃ t, NumberText n t ∧ (rules.bounded = true → n.inRange = true) ∧ cs = t ++ rest := by
  unfold Reader.number at h
  split at h
  · obtain ⟨whole, fraction, exponent, t, ht, rfl, rfl, range⟩ := unsignedNumber_sound h
    exact ⟨'-' :: t, .negative ht, range, rfl⟩
  · obtain ⟨whole, fraction, exponent, t, ht, rfl, rfl, range⟩ := unsignedNumber_sound h
    exact ⟨t, .positive ht, range, rfl⟩

theorem Whole.head {ds : List Char} (h : Whole ds) :
    ∃ d more, ds = d :: more ∧ d.isDigit = true := by
  obtain ⟨⟨nonempty, all⟩, -⟩ := h
  cases ds with
  | nil => exact absurd rfl nonempty
  | cons d more => exact ⟨d, more, rfl, all d List.mem_cons_self⟩

theorem number_eq {n : Number} {t rest : List Char} (h : NumberText n t) (stop : NoPart rest) :
    Reader.number rules (t ++ rest) =
      if rules.bounded && !n.inRange then .error .malformed else .ok (n, rest) := by
  cases h with
  | negative h => exact unsignedNumber_eq h stop
  | positive h =>
    have read := @unsignedNumber_eq rules false _ _ _ _ _ h stop
    unfold Reader.number
    split
    · next r same =>
      -- no digit is a minus sign
      cases h with
      | parts hw hf he =>
        obtain ⟨d, more, rfl, hd⟩ := hw.head
        cases same
        exact absurd hd (by decide)
    · exact read

theorem number_complete {n : Number} {t rest : List Char} (h : NumberText n t)
    (range : k = .exact → n.inRange = true) (stop : NoPart rest) :
    Reader.number k.rules (t ++ rest) = .ok (n, rest) := by
  have kept : ¬ (k.rules.bounded && !n.inRange) = true := by
    intro refused
    obtain ⟨bounded, out⟩ := Bool.and_eq_true_iff.mp refused
    rw [range (Care.bounded_rules.mp bounded)] at out
    cases out
  rw [number_eq h stop, if_neg kept]

end Grammar
end Json
end Chance
