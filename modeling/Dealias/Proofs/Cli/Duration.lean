import Mathlib.Tactic.Linarith
import Mathlib.Tactic.Ring
import Dealias.Cli.Duration
import Dealias.Proofs.Number.Numeral
import Dealias.Proofs.Number.Rounding

/-!
# Durations that are read back

What is shown of a duration is a number of milliseconds, a number of hundredths of a second, or
minutes and seconds (`Shown`), and the text tells which it is (`Shown.read?_text`).  The value that
is read back is as close to the duration as its unit allows, and longer durations never read back as
shorter ones.

The units are normal but for one slip.  The form is chosen by the whole milliseconds, and the
hundredths are rounded afterwards, so what is less than one minute by less than 5 ms is shown as
`60.00s`.  `Duration.text_normal_iff` gives the exact range: it begins behind 59.995 s, because the
number with 53 significant bits that is nearest to 59.995 is smaller than it.

## Strategy

`Duration.shown_cases` says once what each form tells about the duration in nanoseconds.  The binary
roundings that come before the decimal one change a duration below one minute by much less than a
nanosecond (`Duration.abs_inSeconds_sub_le`), and durations are whole nanoseconds, so they never
move it across the middle between two hundredths (`Duration.hundredths_near`).  All the rest is
linear arithmetic in whole numbers.
-/

namespace Dealias.Cli

/-! ## What is shown -/

/-- What is shown of a duration. -/
inductive Shown where
  | milliseconds (count : Nat)
  | seconds (hundredths : Nat)
  | minutes (count rest : Nat)
deriving DecidableEq, Repr

namespace Shown

/-- The text that shows it. -/
def text : Shown → String
  | milliseconds count => toString count ++ "ms"
  | seconds hundredths =>
    toString (hundredths / 100) ++ "." ++ paddedDigits 2 (hundredths % 100) ++ "s"
  | minutes count rest => toString count ++ "m " ++ toString rest ++ "s"

/-- What a number and the units behind it show. -/
def ofUnits? (count : Nat) : List Char → Option Shown
  | ['m', 's'] => some (milliseconds count)
  | ['.', tenths, hundredths, 's'] =>
    (digits? [tenths, hundredths]).map fun places => seconds (100 * count + places)
  | 'm' :: ' ' :: rest =>
    (leadingNumber? rest).bind fun behind =>
      if behind.2 = ['s'] then some (minutes count behind.1) else none
  | _ => none

/-- Read a text back. -/
def read? (text : String) : Option Shown :=
  (leadingNumber? text.toList).bind fun front => ofUnits? front.1 front.2

/-- The nanoseconds that what is shown stands for. -/
def nanoseconds : Shown → Nat
  | milliseconds count => count * 1000000
  | seconds hundredths => hundredths * 10000000
  | minutes count rest => (60 * count + rest) * 1000000000

/-- Whether no unit is so full that a greater one should be shown, and none is empty that should not
be. -/
def IsNormal : Shown → Prop
  | milliseconds count => count < 1000
  | seconds hundredths => 100 ≤ hundredths ∧ hundredths < 6000
  | minutes count rest => 1 ≤ count ∧ rest < 60

instance : DecidablePred IsNormal
  | milliseconds count => inferInstanceAs (Decidable (count < 1000))
  | seconds hundredths => inferInstanceAs (Decidable (100 ≤ hundredths ∧ hundredths < 6000))
  | minutes count rest => inferInstanceAs (Decidable (1 ≤ count ∧ rest < 60))

/-- Whether what is shown is as close to a number of nanoseconds as its unit allows. -/
def Approximates (shown : Shown) (total : Nat) : Prop :=
  let gap := ((shown.nanoseconds : Int) - total).natAbs
  match shown with
  | milliseconds _ => gap < 1000000
  | seconds _ => gap ≤ 5000000
  | minutes _ _ => gap < 1000000000

/-- What is shown is read back from its text. -/
theorem read?_text (shown : Shown) : read? shown.text = some shown := by
  cases shown with
  | milliseconds count =>
      have htext : (milliseconds count).text.toList = (toString count).toList ++ ['m', 's'] := by
        simp [text]
      rw [read?, htext, leadingNumber?_append count (by decide)]
      rfl
  | seconds hundredths =>
      have hlength : (paddedDigits 2 (hundredths % 100)).toList.length = 2 :=
        length_paddedDigits (by decide) (Nat.mod_lt _ (by decide))
      have hplaces := digits?_paddedDigits 2 (hundredths % 100)
      have htext : (seconds hundredths).text.toList = (toString (hundredths / 100)).toList ++
          '.' :: ((paddedDigits 2 (hundredths % 100)).toList ++ ['s']) := by
        simp [text]
      obtain ⟨first, second, hdigits⟩ := List.length_eq_two.mp hlength
      rw [hdigits] at hplaces htext
      rw [read?, htext, leadingNumber?_append _ (by decide)]
      simp [ofUnits?, hplaces, Nat.div_add_mod]
  | minutes count rest =>
      have htext : (minutes count rest).text.toList = (toString count).toList ++
          'm' :: ' ' :: ((toString rest).toList ++ ['s']) := by
        simp [text]
      have hrest : leadingNumber? ((toString rest).toList ++ ['s']) = some (rest, ['s']) :=
        leadingNumber?_append rest (by decide) []
      rw [read?, htext, leadingNumber?_append _ (by decide)]
      simp only [Option.bind_some, ofUnits?, hrest, if_true]

end Shown

namespace Duration

variable {duration : Duration}

/-! ## What a duration shows -/

/-- The nanoseconds of a duration. -/
def total (duration : Duration) : Nat :=
  duration.seconds * 1000000000 + duration.nanoseconds.val

theorem eq_of_total_eq {other : Duration} (htotal : duration.total = other.total) :
    duration = other := by
  obtain ⟨seconds, nanoseconds, hbounded⟩ := duration
  obtain ⟨otherSeconds, otherNanoseconds, hother⟩ := other
  simp only [total] at htotal
  obtain rfl : seconds = otherSeconds := by omega
  obtain rfl : nanoseconds = otherNanoseconds := by omega
  rfl

theorem milliseconds_eq (duration : Duration) :
    duration.milliseconds = duration.total / 1000000 := by
  unfold milliseconds total
  omega

/-- The hundredths of a second that a duration is rounded to. -/
def hundredths (duration : Duration) : Nat := fixedUnits 2 duration.inSeconds

/-- What is shown of a duration. -/
def shown (duration : Duration) : Shown :=
  if duration.milliseconds < 1000 then .milliseconds duration.milliseconds
  else if duration.milliseconds < 60000 then .seconds duration.hundredths
  else .minutes (duration.seconds / 60) (duration.seconds % 60)

theorem text_shown (duration : Duration) : duration.shown.text = duration.text := by
  unfold shown text
  split
  · rfl
  · split
    · rw [toFixed_succ]
      rfl
    · rfl

theorem read?_text (duration : Duration) : Shown.read? duration.text = some duration.shown := by
  rw [← text_shown, Shown.read?_text]

/-! ## Rounding -/

/-- The seconds and the part of a second, each rounded for itself. -/
theorem roundedParts_nonneg (duration : Duration) :
    0 ≤ roundToDouble (mkRat duration.seconds 1) +
      roundToDouble (mkRat duration.nanoseconds.val 1000000000) :=
  add_nonneg (roundToDouble_nonneg (Rat.mkRat_nonneg (Int.natCast_nonneg _) _))
    (roundToDouble_nonneg (Rat.mkRat_nonneg (Int.natCast_nonneg _) _))

/-- The three roundings to 53 significant bits change a duration by little. -/
theorem abs_inSeconds_sub_le (duration : Duration) :
    |duration.inSeconds - (duration.total : ℚ) / 10 ^ 9| ≤
      (duration.total : ℚ) / 10 ^ 9 * (3 / 2 ^ 53) := by
  have hparts : (duration.total : ℚ) / 10 ^ 9 =
      mkRat duration.seconds 1 + mkRat duration.nanoseconds.val 1000000000 := by
    rw [Rat.mkRat_eq_div, Rat.mkRat_eq_div, total]
    push_cast
    ring
  have hseconds : (0 : ℚ) ≤ mkRat duration.seconds 1 :=
    Rat.mkRat_nonneg (Int.natCast_nonneg _) _
  have hrest : (0 : ℚ) ≤ mkRat duration.nanoseconds.val 1000000000 :=
    Rat.mkRat_nonneg (Int.natCast_nonneg _) _
  obtain ⟨hfirst, hfirst'⟩ := abs_le.mp (abs_roundToDouble_sub_le hseconds)
  obtain ⟨hsecond, hsecond'⟩ := abs_le.mp (abs_roundToDouble_sub_le hrest)
  obtain ⟨hthird, hthird'⟩ := abs_le.mp (abs_roundToDouble_sub_le duration.roundedParts_nonneg)
  rw [hparts, abs_le, inSeconds]
  constructor <;> linarith

/-- Below one minute the hundredths are the nearest ones. -/
theorem hundredths_near (hminute : duration.total < 60000000000) :
    duration.hundredths * 10000000 ≤ duration.total + 5000000 ∧
      duration.total ≤ duration.hundredths * 10000000 + 5000000 := by
  have hminute : (duration.total : ℚ) < 60000000000 := by exact_mod_cast hminute
  have hpositive : (0 : ℚ) ≤ duration.inSeconds :=
    roundToDouble_nonneg duration.roundedParts_nonneg
  obtain ⟨hbinary, hbinary'⟩ := abs_le.mp duration.abs_inSeconds_sub_le
  obtain ⟨hdecimal, hdecimal'⟩ := abs_le.mp (abs_fixedUnits_sub_le 2 hpositive)
  change -(1 / 2) ≤ (duration.hundredths : ℚ) - _ at hdecimal
  change (duration.hundredths : ℚ) - _ ≤ 1 / 2 at hdecimal'
  -- the binary roundings leave less than a nanosecond
  have hupper : (duration.hundredths : ℚ) * 10000000 < duration.total + 5000001 := by
    linarith
  have hlower : (duration.total : ℚ) < duration.hundredths * 10000000 + 5000001 := by
    linarith
  have hupper : duration.hundredths * 10000000 < duration.total + 5000001 := by
    exact_mod_cast hupper
  have hlower : duration.total < duration.hundredths * 10000000 + 5000001 := by
    exact_mod_cast hlower
  omega

/-- The middle between 59.99 and 60.00 is rounded down, because the nearest number with 53
significant bits is smaller. -/
theorem hundredths_of_total_eq (htotal : duration.total = 59995000000) :
    duration.hundredths = 5999 := by
  have hsame : duration.total = (make 59 995000000).total := htotal.trans (by decide +kernel)
  rw [eq_of_total_eq hsame]
  decide +kernel

/-! ## The forms -/

/-- What each form tells about the duration. -/
theorem shown_cases (duration : Duration) :
    (∃ count, duration.shown = .milliseconds count ∧ count < 1000 ∧
      count * 1000000 ≤ duration.total ∧ duration.total < count * 1000000 + 1000000) ∨
    (∃ hundredths, duration.shown = .seconds hundredths ∧
      1000000000 ≤ duration.total ∧ duration.total < 60000000000 ∧
      hundredths * 10000000 ≤ duration.total + 5000000 ∧
      duration.total ≤ hundredths * 10000000 + 5000000 ∧
      (duration.total = 59995000000 → hundredths = 5999)) ∨
    (∃ count rest, duration.shown = .minutes count rest ∧ 1 ≤ count ∧ rest < 60 ∧
      (60 * count + rest) * 1000000000 ≤ duration.total ∧
      duration.total < (60 * count + rest) * 1000000000 + 1000000000) := by
  have hmilliseconds := duration.milliseconds_eq
  unfold shown
  split
  · exact .inl ⟨_, rfl, by omega⟩
  · split
    · have hminute : duration.total < 60000000000 := by omega
      obtain ⟨hupper, hlower⟩ := hundredths_near hminute
      exact .inr (.inl ⟨_, rfl, by omega, hminute, hupper, hlower, hundredths_of_total_eq⟩)
    · have hbounded := duration.nanoseconds.isLt
      have htotal : duration.total = duration.seconds * 1000000000 + duration.nanoseconds.val := rfl
      exact .inr (.inr ⟨_, _, rfl, by omega⟩)

/-- A longer duration never shows less. -/
theorem nanoseconds_shown_le {later : Duration} (htotal : duration.total ≤ later.total) :
    duration.shown.nanoseconds ≤ later.shown.nanoseconds := by
  rcases htotal.eq_or_lt with hsame | hlonger
  · rw [eq_of_total_eq hsame]
  · rcases duration.shown_cases with ⟨count, hshown, hcase⟩ | ⟨hundredths, hshown, hcase⟩ |
      ⟨count, rest, hshown, hcase⟩ <;>
    rcases later.shown_cases with ⟨count', hshown', hcase'⟩ | ⟨hundredths', hshown', hcase'⟩ |
      ⟨count', rest', hshown', hcase'⟩ <;>
    rw [hshown, hshown'] <;> simp only [Shown.nanoseconds] <;> omega

/-- What is shown is as close to the duration as its unit allows. -/
theorem approximates_shown (duration : Duration) :
    duration.shown.Approximates duration.total := by
  rcases duration.shown_cases with ⟨count, hshown, hcase⟩ | ⟨hundredths, hshown, hcase⟩ |
    ⟨count, rest, hshown, hcase⟩ <;>
  rw [hshown] <;> simp only [Shown.Approximates, Shown.nanoseconds] <;> omega

theorem isNormal_shown_iff (duration : Duration) :
    duration.shown.IsNormal ↔
      ¬ (59995000000 < duration.total ∧ duration.total < 60000000000) := by
  rcases duration.shown_cases with ⟨count, hshown, hcase⟩ | ⟨hundredths, hshown, hcase⟩ |
    ⟨count, rest, hshown, hcase⟩ <;>
  rw [hshown] <;> simp only [Shown.IsNormal] <;> omega

/-- Only sixty seconds are shown where a greater unit should be. -/
theorem shown_of_not_isNormal (hexception : ¬ duration.shown.IsNormal) :
    duration.shown = .seconds 6000 := by
  rw [isNormal_shown_iff, not_not] at hexception
  rcases duration.shown_cases with ⟨count, hshown, hcase⟩ | ⟨hundredths, hshown, hcase⟩ |
    ⟨count, rest, hshown, hcase⟩
  · omega
  · obtain rfl : hundredths = 6000 := by omega
    exact hshown
  · omega

/-- **Normal units, but for a minute.**  The text of a duration is read back to what it shows, which
is close to the duration, and a longer duration is never read back to less.  The units are normal
except right below one minute: behind 59.995 s the text is `60.00s`. -/
theorem text_normal_iff (duration : Duration) :
    ∃ shown : Shown, shown.text = duration.text ∧ Shown.read? duration.text = some shown ∧
      shown.Approximates duration.total ∧
      (shown.IsNormal ↔ ¬ (59995000000 < duration.total ∧ duration.total < 60000000000)) ∧
      (¬ shown.IsNormal → duration.text = "60.00s") ∧
      ∀ later : Duration, duration.total ≤ later.total →
        ∃ other, Shown.read? later.text = some other ∧ shown.nanoseconds ≤ other.nanoseconds := by
  refine ⟨duration.shown, duration.text_shown, duration.read?_text, duration.approximates_shown,
    duration.isNormal_shown_iff, fun hexception => ?_,
    fun later htotal => ⟨later.shown, later.read?_text, nanoseconds_shown_le htotal⟩⟩
  rw [← text_shown, shown_of_not_isNormal hexception]
  decide +kernel

/-- One millisecond less than a minute, beside a second more than a minute. -/
theorem text_normal_sample :
    ∃ shown other : Shown, Shown.read? (make 59 999000000).text = some shown ∧
      Shown.read? (make 61 0).text = some other ∧ ¬ shown.IsNormal ∧
      shown.Approximates (make 59 999000000).total ∧ (make 59 999000000).text = "60.00s" ∧
      (make 59 999000000).total ≤ (make 61 0).total ∧ shown.nanoseconds ≤ other.nanoseconds := by
  obtain ⟨shown, -, hread, hclose, hnormal, hminute, hlonger⟩ := text_normal_iff (make 59 999000000)
  have hexception : ¬ shown.IsNormal := by
    rw [hnormal, not_not]
    decide +kernel
  have htotal : (make 59 999000000).total ≤ (make 61 0).total := by decide +kernel
  obtain ⟨other, hother, hle⟩ := hlonger (make 61 0) htotal
  exact ⟨shown, other, hread, hother, hexception, hclose, hminute hexception, htotal, hle⟩

/-- Nothing with normal units has the text of 59.999 s. -/
theorem text_sixty_seconds_sample :
    ¬ ∃ shown : Shown, shown.IsNormal ∧ shown.text = (make 59 999000000).text := by
  rintro ⟨shown, hnormal, htext⟩
  have hread : Shown.read? (make 59 999000000).text = some (.seconds 6000) := by decide +kernel
  rw [← htext, Shown.read?_text] at hread
  obtain rfl := Option.some.inj hread
  exact absurd hnormal (by decide)

end Duration
end Dealias.Cli
