import Ginkgo.Core.Timer

/-!
# Clock event devices

The model of `clockevent_set_event_next` and of the functions of `clockevent.h` that set a device
up.  A delay in nanoseconds is converted to ticks of the device by a multiplication and a shift;
the factors are searched for when the device is probed, with the range of delays that they can
convert.

Numbers are words of the source: a `u64_t` result is reduced by `wrap64`, and a `ktime_t` is an
integer.

## Main results

* `programmable_probe` — a probed device is programmable, whatever its frequency.
* `clockeventSetEventNext_ticks` — the conversion of a delay does not overflow, gives
  at least one tick and is monotone.
* `core_clockeventSetEventNext` — the timers see the delay that is converted.
-/

namespace Ginkgo.Driver

open Ginkgo.Core (toInt64 Reading)

/-! ## The functions of the source -/

/-- `clockevent_t`: the conversion of nanoseconds to ticks, and the delays that are converted. -/
structure Clockevent where
  /-- The factor of the conversion, a `u32_t`. -/
  mult : ℕ
  /-- The number of bits that are dropped from the product, a `u32_t`. -/
  shift : ℕ
  /-- `min_delta_ns`. -/
  minDeltaNs : ℕ
  /-- `max_delta_ns`. -/
  maxDeltaNs : ℕ
deriving DecidableEq, Repr

/-- The first loop of `clockevent_calc_mult_shift`.  It is entered with less than 32 bits in
`tmp`, so `sftacc` does not fall below zero. -/
def sftaccLoop (tmp sftacc : ℕ) : ℕ :=
  if tmp = 0 then sftacc else sftaccLoop (tmp >>> 1) (sftacc - 1)
termination_by tmp
decreasing_by
  rw [Nat.shiftRight_one]
  omega

/-- The factor for a shift: `freq << sft`, divided by a billion and rounded. -/
def clockeventFactor (freq sft : ℕ) : ℕ :=
  wrap64 (wrap64 (freq <<< sft) + 1000000000 / 2) / 1000000000

/-- The second loop of `clockevent_calc_mult_shift`, which returns `tmp` and `sft`. -/
def multShiftLoop (freq sftacc tmp : ℕ) : ℕ → ℕ × ℕ
  | 0 => (tmp, 0)
  | sft + 1 =>
    let tmp := clockeventFactor freq (sft + 1)
    if tmp >>> sftacc = 0 then (tmp, sft + 1) else multShiftLoop freq sftacc tmp sft

/-- `clockevent_calc_mult_shift`. -/
def clockeventCalcMultShift (ce : Clockevent) (freq minsec : ℕ) : Clockevent :=
  let sftacc := sftaccLoop (wrap64 (minsec * 1000000000) >>> 32) 32
  -- The first loop leaves zero in `tmp`.
  let r := multShiftLoop freq sftacc 0 32
  { ce with mult := r.1 % 2 ^ 32, shift := r.2 }

/-- `clockevent_delta2ns`, with the device whose `mult` it has replaced if it was zero. -/
def clockeventDelta2ns (ce : Clockevent) (latch : ℕ) : ℕ × Clockevent :=
  let clc := wrap64 (latch <<< ce.shift)
  let ce := if ce.mult = 0 then { ce with mult := 1 } else ce
  let rnd := ce.mult - 1
  let clc := if clc >>> ce.shift ≠ latch then 2 ^ 64 - 1 else clc
  let clc :=
    if rnd < 2 ^ 64 - 1 - clc ∧ ce.mult ≤ wrap64 (1 <<< ce.shift) then wrap64 (clc + rnd) else clc
  let clc := clc / ce.mult
  (if 1000 < clc then clc else 1000, ce)

/-- The range of delays that `ce_clint_timer_probe` sets. -/
def Clockevent.setRange (ce : Clockevent) : Clockevent :=
  let r := clockeventDelta2ns ce 1
  let ce := { r.2 with minDeltaNs := r.1 }
  let r := clockeventDelta2ns ce (2 ^ 64 - 1)
  { r.2 with maxDeltaNs := r.1 }

/-- `ce_clint_timer_probe`, for a device of the given rate: the fields that it sets. -/
def ceClintTimerProbe (ce : Clockevent) (rate : ℕ) : Clockevent :=
  (clockeventCalcMultShift ce (rate % 2 ^ 32) 10).setRange

/-- The delay that `clockevent_set_event_next` converts: the time to go, within the range of the
device. -/
def Clockevent.delta (ce : Clockevent) (now expires : ℤ) : ℕ :=
  let delta := (toInt64 (expires - now) % 2 ^ 64).toNat
  let delta := if ce.maxDeltaNs < delta then ce.maxDeltaNs else delta
  if delta < ce.minDeltaNs then ce.minDeltaNs else delta

/-- `clockevent_set_event_next`: the number of ticks that `ce->next` is called with, if it is
called. -/
def clockeventSetEventNext (ce : Option Clockevent) (now expires : ℤ) : Option ℕ :=
  match ce with
  | none => none
  | some ce =>
    if expires < now then none
    else some (wrap64 (ce.delta now expires * ce.mult) >>> ce.shift)

/-! ## Devices that can be programmed -/

/-- **The factors and the range of a device fit together**: the shortest delay is a tick, and the
product of the longest delay is a word. -/
structure Clockevent.Programmable (ce : Clockevent) : Prop where
  tick : 2 ^ ce.shift ≤ ce.minDeltaNs * ce.mult
  min_le_max : ce.minDeltaNs ≤ ce.maxDeltaNs
  max_mul_lt : ce.maxDeltaNs * ce.mult < 2 ^ 64

variable {ce : Clockevent} {now expires expires' : ℤ}

theorem Clockevent.delta_eq (ce : Clockevent) (hle : now ≤ expires)
    (hrep : expires - now < 2 ^ 63) :
    ce.delta now expires = max ce.minDeltaNs (min ce.maxDeltaNs (expires - now).toNat) := by
  have hint : (toInt64 (expires - now) % 2 ^ 64).toNat = (expires - now).toNat := by
    unfold toInt64
    omega
  rw [Clockevent.delta, hint]
  split_ifs <;> omega

/-- **The device of the timers** fires after the delay that is converted. -/
theorem core_clockeventSetEventNext (fire : Option ℤ) {r : Reading} (hle : r.now ≤ expires)
    (hrep : expires - r.now < 2 ^ 63) :
    Core.clockeventSetEventNext ⟨ce.minDeltaNs, ce.maxDeltaNs⟩ fire r expires =
      some (r.dev + ce.delta r.now expires) := by
  rw [ce.delta_eq hle hrep, Core.clockeventSetEventNext, if_neg (by omega)]
  simp only [Option.some.injEq, add_right_inj]
  omega

namespace Clockevent.Programmable

section

variable (hce : ce.Programmable) (hle : now ≤ expires) (hrep : expires - now < 2 ^ 63)

include hce hle hrep

theorem delta_mul_lt : ce.delta now expires * ce.mult < 2 ^ 64 := by
  have hmax : ce.delta now expires ≤ ce.maxDeltaNs := by
    have := hce.min_le_max
    rw [ce.delta_eq hle hrep]
    omega
  calc ce.delta now expires * ce.mult ≤ ce.maxDeltaNs * ce.mult := by gcongr
    _ < 2 ^ 64 := hce.max_mul_lt

theorem setEventNext_eq : clockeventSetEventNext (some ce) now expires =
      some (ce.delta now expires * ce.mult / 2 ^ ce.shift) := by
  rw [clockeventSetEventNext, if_neg (by omega), wrap64_of_lt (hce.delta_mul_lt hle hrep),
    Nat.shiftRight_eq_div_pow]

theorem one_le_ticks : 1 ≤ ce.delta now expires * ce.mult / 2 ^ ce.shift := by
  rw [Nat.le_div_iff_mul_le (Nat.two_pow_pos _), one_mul]
  have hmin : ce.minDeltaNs ≤ ce.delta now expires := by
    rw [ce.delta_eq hle hrep]
    omega
  calc 2 ^ ce.shift ≤ ce.minDeltaNs * ce.mult := hce.tick
    _ ≤ ce.delta now expires * ce.mult := by gcongr

end

end Clockevent.Programmable

theorem Clockevent.ticks_mono (ce : Clockevent) (hle : now ≤ expires) (hlater : expires ≤ expires')
    (hrep : expires' - now < 2 ^ 63) :
    ce.delta now expires * ce.mult / 2 ^ ce.shift ≤
      ce.delta now expires' * ce.mult / 2 ^ ce.shift := by
  have hdelta : ce.delta now expires ≤ ce.delta now expires' := by
    rw [ce.delta_eq hle (by omega), ce.delta_eq (by omega) hrep]
    omega
  gcongr

/-! ## The factors -/

theorem clockeventFactor_eq {freq sft : ℕ} (hfreq : freq < 2 ^ 32) (hsft : sft ≤ 32) :
    clockeventFactor freq sft = (freq * 2 ^ sft + 500000000) / 1000000000 := by
  have hmul : freq * 2 ^ sft ≤ (2 ^ 32 - 1) * 2 ^ 32 :=
    Nat.mul_le_mul (by omega) (Nat.pow_le_pow_right (by omega) hsft)
  rw [clockeventFactor, Nat.shiftLeft_eq]
  generalize freq * 2 ^ sft = product at hmul
  rw [wrap64_of_lt (x := product) (by omega), wrap64_of_lt (by omega)]

theorem multShiftLoop_spec {freq sftacc good : ℕ} (hpos : 0 < good)
    (hgood : clockeventFactor freq good < 2 ^ sftacc) (tmp : ℕ) {sft : ℕ} (hle : good ≤ sft) :
    ∃ s, good ≤ s ∧ s ≤ sft ∧ clockeventFactor freq s < 2 ^ sftacc ∧
      multShiftLoop freq sftacc tmp sft = (clockeventFactor freq s, s) := by
  induction sft generalizing tmp with
  | zero => omega
  | succ sft ih =>
    by_cases hfits : clockeventFactor freq (sft + 1) < 2 ^ sftacc
    · refine ⟨sft + 1, hle, le_rfl, hfits, ?_⟩
      simp [multShiftLoop, Nat.shiftRight_eq_div_pow, Nat.div_eq_of_lt hfits]
    · have hne : good ≠ sft + 1 := fun h => hfits (h ▸ hgood)
      obtain ⟨s, hlo, hhi, hlt, heq⟩ := ih (clockeventFactor freq (sft + 1)) (by omega)
      refine ⟨s, hlo, by omega, hlt, ?_⟩
      have hshift : clockeventFactor freq (sft + 1) / 2 ^ sftacc ≠ 0 := by
        rw [Ne, Nat.div_eq_zero_iff_lt (Nat.two_pow_pos _)]
        exact hfits
      simp only [multShiftLoop, Nat.shiftRight_eq_div_pow, if_neg hshift, heq]

theorem sftaccLoop_ten : sftaccLoop (wrap64 (10 * 1000000000) >>> 32) 32 = 30 := by
  rw [wrap64_of_lt (by norm_num)]
  simp [sftaccLoop]

theorem clockeventCalcMultShift_spec (ce : Clockevent) {freq : ℕ} (hfreq : freq < 2 ^ 32) :
    (clockeventCalcMultShift ce freq 10).mult < 2 ^ 30 ∧
      27 ≤ (clockeventCalcMultShift ce freq 10).shift ∧
      (clockeventCalcMultShift ce freq 10).shift ≤ 32 := by
  have hgood : clockeventFactor freq 27 < 2 ^ 30 := by
    rw [clockeventFactor_eq hfreq (by norm_num)]
    omega
  obtain ⟨s, hlo, hhi, hlt, heq⟩ := multShiftLoop_spec (by norm_num) hgood 0
    (show 27 ≤ 32 by norm_num)
  have hce : clockeventCalcMultShift ce freq 10 =
      { ce with mult := clockeventFactor freq s % 2 ^ 32, shift := s } := by
    rw [clockeventCalcMultShift, sftaccLoop_ten, heq]
  rw [hce]
  exact ⟨(Nat.mod_le _ _).trans_lt hlt, hlo, hhi⟩

/-! ## The range of delays -/

theorem clockeventDelta2ns_snd (ce : Clockevent) (latch : ℕ) :
    (clockeventDelta2ns ce latch).2 = { ce with mult := max ce.mult 1 } := by
  unfold clockeventDelta2ns
  by_cases hzero : ce.mult = 0
  · simp [hzero]
  · have hmax : max ce.mult 1 = ce.mult := by omega
    simp [hzero, hmax]

/-- A device with the factors that the search ends with. -/
structure Clockevent.Factors (ce : Clockevent) : Prop where
  mult_pos : 0 < ce.mult
  mult_lt : ce.mult < 2 ^ 30
  le_shift : 27 ≤ ce.shift
  shift_le : ce.shift ≤ 32

namespace Clockevent.Factors

theorem two_pow_shift (hce : ce.Factors) : 2 ^ 27 ≤ 2 ^ ce.shift ∧ 2 ^ ce.shift ≤ 2 ^ 32 :=
  ⟨Nat.pow_le_pow_right (by norm_num) hce.le_shift,
    Nat.pow_le_pow_right (by norm_num) hce.shift_le⟩

theorem delta2ns_one (hce : ce.Factors) :
    2 ^ ce.shift ≤ (clockeventDelta2ns ce 1).1 * ce.mult ∧
      (clockeventDelta2ns ce 1).1 ≤ 2 ^ 33 := by
  obtain ⟨hlo, hhi⟩ := hce.two_pow_shift
  have hpos := hce.mult_pos
  have hlt := hce.mult_lt
  have hclc : wrap64 (1 <<< ce.shift) = 2 ^ ce.shift := by
    rw [Nat.shiftLeft_eq, one_mul, wrap64_of_lt (by omega)]
  have hback : 2 ^ ce.shift >>> ce.shift = 1 := by
    rw [Nat.shiftRight_eq_div_pow, Nat.div_self (by omega)]
  simp only [clockeventDelta2ns, hclc, if_neg hpos.ne', hback, ne_eq, not_true_eq_false, if_false]
  by_cases hround : ce.mult ≤ 2 ^ ce.shift
  · have hclc' : wrap64 (2 ^ ce.shift + (ce.mult - 1)) = 2 ^ ce.shift + (ce.mult - 1) :=
      wrap64_of_lt (by omega)
    have hroom : ce.mult - 1 < 2 ^ 64 - 1 - 2 ^ ce.shift := by omega
    simp only [if_pos (And.intro hroom hround), hclc']
    generalize 2 ^ ce.shift = tick at *
    have hceil : tick ≤ (tick + (ce.mult - 1)) / ce.mult * ce.mult := by
      have := Nat.div_add_mod (tick + (ce.mult - 1)) ce.mult
      have := Nat.mod_lt (tick + (ce.mult - 1)) hpos
      rw [Nat.mul_comm]
      omega
    have hle : (tick + (ce.mult - 1)) / ce.mult ≤ tick + (ce.mult - 1) := Nat.div_le_self _ _
    split_ifs with hshort
    · exact ⟨hceil, by omega⟩
    · refine ⟨hceil.trans ?_, by norm_num⟩
      gcongr
      omega
  · have hzero : 2 ^ ce.shift / ce.mult = 0 := Nat.div_eq_of_lt (not_le.mp hround)
    simp only [hround, and_false, if_false, hzero, Nat.not_lt_zero]
    exact ⟨by omega, by norm_num⟩

theorem delta2ns_max (hce : ce.Factors) :
    (clockeventDelta2ns ce (2 ^ 64 - 1)).1 = (2 ^ 64 - 1) / ce.mult := by
  obtain ⟨hlo, hhi⟩ := hce.two_pow_shift
  have hpos := hce.mult_pos
  have hover : wrap64 ((2 ^ 64 - 1) <<< ce.shift) >>> ce.shift ≠ 2 ^ 64 - 1 := by
    have hlt := wrap64_lt ((2 ^ 64 - 1) <<< ce.shift)
    rw [Nat.shiftRight_eq_div_pow]
    refine ne_of_lt ((Nat.div_le_div_left hlo (by norm_num)).trans_lt ?_)
    omega
  have hlong : 1000 < (2 ^ 64 - 1) / ce.mult :=
    calc 1000 < (2 ^ 64 - 1) / 2 ^ 30 := by norm_num
      _ ≤ (2 ^ 64 - 1) / ce.mult := Nat.div_le_div_left hce.mult_lt.le hpos
  simp only [clockeventDelta2ns, if_neg hpos.ne', if_pos hover, Nat.sub_self, Nat.not_lt_zero,
    false_and, if_false, if_pos hlong]

theorem programmable (hce : ce.Factors) {minDelta : ℕ} (htick : 2 ^ ce.shift ≤ minDelta * ce.mult)
    (hmin : minDelta ≤ 2 ^ 33) :
    ({ ce with minDeltaNs := minDelta, maxDeltaNs := (2 ^ 64 - 1) / ce.mult } :
      Clockevent).Programmable where
  tick := htick
  min_le_max := by
    calc minDelta ≤ (2 ^ 64 - 1) / 2 ^ 30 := hmin.trans (by norm_num)
      _ ≤ (2 ^ 64 - 1) / ce.mult := Nat.div_le_div_left hce.mult_lt.le hce.mult_pos
  max_mul_lt := (Nat.div_mul_le_self _ _).trans_lt (by norm_num)

end Clockevent.Factors

theorem clockeventDelta2ns_fst (ce : Clockevent) (latch : ℕ) :
    (clockeventDelta2ns ce latch).1 =
      (clockeventDelta2ns { ce with mult := max ce.mult 1 } latch).1 := by
  unfold clockeventDelta2ns
  by_cases hzero : ce.mult = 0
  · simp [hzero]
  · have hmax : max ce.mult 1 = ce.mult := by omega
    simp [hmax]

theorem Clockevent.programmable_setRange (hmult : ce.mult < 2 ^ 30) (hlo : 27 ≤ ce.shift)
    (hhi : ce.shift ≤ 32) : ce.setRange.Programmable := by
  have hce : ({ ce with mult := max ce.mult 1 } : Clockevent).Factors :=
    ⟨lt_max_of_lt_right one_pos, max_lt hmult (by norm_num), hlo, hhi⟩
  obtain ⟨htick, hmin⟩ := hce.delta2ns_one
  rw [← clockeventDelta2ns_fst ce 1] at htick hmin
  rw [Clockevent.setRange]
  simp only [clockeventDelta2ns_snd]
  generalize (clockeventDelta2ns ce 1).1 = minDelta at *
  have hce' : ({ ce with mult := max ce.mult 1, minDeltaNs := minDelta } : Clockevent).Factors :=
    ⟨hce.mult_pos, hce.mult_lt, hlo, hhi⟩
  have hone : max (max ce.mult 1) 1 = max ce.mult 1 := by omega
  rw [hce'.delta2ns_max, hone]
  exact hce'.programmable htick hmin

/-- **A probed device is programmable.**

**Proof sketch.** The factors have `mult` below `2 ^ 30` and a shift between 27 and 32.  So the
delay of one tick is below `2 ^ 33`, and the longest delay is `(2 ^ 64 - 1) / mult`, which is
above. -/
theorem programmable_probe (ce : Clockevent) (rate : ℕ) :
    (ceClintTimerProbe ce rate).Programmable := by
  have hrate : rate % 2 ^ 32 < 2 ^ 32 := Nat.mod_lt _ (by norm_num)
  obtain ⟨hmult, hlo, hhi⟩ := clockeventCalcMultShift_spec ce hrate
  exact Clockevent.programmable_setRange hmult hlo hhi

/-- **Programming a clock event device cannot overflow or stall.**  For every frequency, and every
expiry that is not in the past, the product of the delay fits in 64 bits, the device is called with
at least one tick, and a later expiry does not give fewer ticks. -/
theorem clockeventSetEventNext_ticks (ce₀ : Clockevent) (freq : ℕ) {now expires expires' : ℤ}
    (hle : now ≤ expires) (hlater : expires ≤ expires') (hrep : expires' - now < 2 ^ 63) :
    (ceClintTimerProbe ce₀ freq).delta now expires * (ceClintTimerProbe ce₀ freq).mult < 2 ^ 64 ∧
      ∃ ticks ticks',
        clockeventSetEventNext (some (ceClintTimerProbe ce₀ freq)) now expires = some ticks ∧
        clockeventSetEventNext (some (ceClintTimerProbe ce₀ freq)) now expires' = some ticks' ∧
        1 ≤ ticks ∧ ticks ≤ ticks' := by
  have hce := programmable_probe ce₀ freq
  have hrep' : expires - now < 2 ^ 63 := by omega
  exact ⟨hce.delta_mul_lt hle hrep', _, _, hce.setEventNext_eq hle hrep',
    hce.setEventNext_eq (hle.trans hlater) hrep, hce.one_le_ticks hle hrep',
    Clockevent.ticks_mono _ hle hlater hrep⟩

/-- A device of 10 MHz, with an expiry that has just come and the last one there is. -/
theorem clockeventSetEventNext_ticks_qemu :
    (ceClintTimerProbe ⟨0, 0, 0, 0⟩ 10000000).delta 0 0 *
        (ceClintTimerProbe ⟨0, 0, 0, 0⟩ 10000000).mult < 2 ^ 64 ∧
      ∃ ticks ticks',
        clockeventSetEventNext (some (ceClintTimerProbe ⟨0, 0, 0, 0⟩ 10000000)) 0 0 =
          some ticks ∧
        clockeventSetEventNext (some (ceClintTimerProbe ⟨0, 0, 0, 0⟩ 10000000)) 0 (2 ^ 63 - 1) =
          some ticks' ∧
        1 ≤ ticks ∧ ticks ≤ ticks' :=
  clockeventSetEventNext_ticks ⟨0, 0, 0, 0⟩ 10000000 le_rfl (by norm_num) (by norm_num)

end Ginkgo.Driver
