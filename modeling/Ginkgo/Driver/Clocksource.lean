import Ginkgo.Driver.Clockevent

/-!
# Clock sources

The model of `clocksource.h`, of the clock source of the CLINT timer and of the monotonic clock
that is read from it.  The cycles of a counter are converted to nanoseconds by a multiplication and
a shift, whose factors are searched for when the clock source is probed.

## Main results

* `converts_iff` — the search keeps its guarantee exactly if it finds a shift, needs
  none, or ends with the factor of the shift 0 by chance.
* `monotonic_iff` — the clock is monotonic exactly for the rates that divide a
  billion.
-/

namespace Ginkgo.Driver

open Ginkgo.Core (toInt64)

/-! ## The functions of the source -/

/-- The factor for a shift: `to << sft`, divided by `from` and rounded. -/
def clocksourceFactor (fromHz toHz sft : ℕ) : ℕ :=
  wrap64 (wrap64 (toHz <<< sft) + fromHz / 2) / fromHz

/-- The second loop of `clocksource_calc_mult_shift`, which returns `tmp` and `sft`. -/
def clocksourceLoop (fromHz toHz sftacc tmp : ℕ) : ℕ → ℕ × ℕ
  | 0 => (tmp, 0)
  | sft + 1 =>
    let tmp := clocksourceFactor fromHz toHz (sft + 1)
    if tmp >>> sftacc = 0 then (tmp, sft + 1) else clocksourceLoop fromHz toHz sftacc tmp sft

/-- The number of bits that `clocksource_calc_mult_shift` allows the factor. -/
def clocksourceSftacc (fromHz maxsec : ℕ) : ℕ :=
  sftaccLoop (wrap64 (maxsec * fromHz) >>> 32) 32

/-- `clocksource_calc_mult_shift`: `mult` and `shift`. -/
def clocksourceCalcMultShift (fromHz toHz maxsec : ℕ) : ℕ × ℕ :=
  let q := toHz / fromHz
  if q * fromHz = toHz then (q, 0)
  else
    -- The first loop leaves zero in `tmp`.
    let r := clocksourceLoop fromHz toHz (clocksourceSftacc fromHz maxsec) 0 32
    (r.1 % 2 ^ 32, r.2)

/-- `clocksource_t`: the conversion of cycles to nanoseconds. -/
structure Clocksource where
  /-- The factor of the conversion, a `u32_t`. -/
  mult : ℕ
  /-- The number of bits that are dropped from the product, a `u32_t`. -/
  shift : ℕ
  /-- The bits of the counter. -/
  mask : ℕ
deriving DecidableEq, Repr

/-- `clocksource_cycle`, for the reading `c` of the counter. -/
def clocksourceCycle (cs : Clocksource) (c : ℕ) : ℕ :=
  c &&& cs.mask

/-- `clocksource_delta2ns`. -/
def clocksourceDelta2ns (cs : Clocksource) (delta : ℕ) : ℕ :=
  wrap64 (delta * cs.mult) >>> cs.shift

/-- `clocksource_keeper_read`. -/
def clocksourceKeeperRead (cs : Clocksource) (c : ℕ) : ℤ :=
  toInt64 (clocksourceDelta2ns cs (clocksourceCycle cs c))

/-- `cs_clint_timer_probe`, for a counter of the given rate: the clock source that it registers. -/
def csClintTimerProbe (rate : ℕ) : Clocksource :=
  let r := clocksourceCalcMultShift (rate % 2 ^ 32) 1000000000 10
  { mult := r.1, shift := r.2, mask := 2 ^ 64 - 1 }

/-- `ktime_get`, for the reading `c` of the counter. -/
def ktimeGet (cs : Option Clocksource) (c : ℕ) : ℤ :=
  match cs with
  | none => 0
  | some cs => clocksourceKeeperRead cs c

/-- `sys_deadline_after`. -/
def sysDeadlineAfter (cs : Option Clocksource) (c : ℕ) (nanoseconds : ℤ) : ℤ :=
  toInt64 (ktimeGet cs c + nanoseconds)

/-! ## The search for the factors -/

variable {fromHz toHz maxsec sftacc sft : ℕ}

theorem sftaccLoop_spec (tmp : ℕ) {bits : ℕ} (hle : bits ≤ sftacc) (hlt : tmp < 2 ^ bits) :
    sftacc - bits ≤ sftaccLoop tmp sftacc ∧ sftaccLoop tmp sftacc ≤ sftacc ∧
      tmp < 2 ^ (sftacc - sftaccLoop tmp sftacc) := by
  induction bits generalizing tmp sftacc with
  | zero =>
    obtain rfl : tmp = 0 := by omega
    rw [sftaccLoop, if_pos rfl]
    simp
  | succ bits ih =>
    rw [sftaccLoop]
    by_cases hzero : tmp = 0
    · rw [if_pos hzero]
      simp [hzero]
    · rw [if_neg hzero, Nat.shiftRight_one]
      rw [pow_succ] at hlt
      obtain ⟨hlo, hhi, hfit⟩ := ih (tmp / 2) (show bits ≤ sftacc - 1 by omega) (by omega)
      generalize sftaccLoop (tmp / 2) (sftacc - 1) = r at *
      refine ⟨by omega, by omega, ?_⟩
      rw [show sftacc - r = sftacc - 1 - r + 1 by omega, pow_succ]
      omega

/-- **The first loop limits the range**: a factor of `sftacc` bits does not overflow. -/
theorem clocksourceSftacc_spec (hfrom : fromHz < 2 ^ 32) (hsec : maxsec < 2 ^ 32) {mult : ℕ}
    (hmult : mult < 2 ^ clocksourceSftacc fromHz maxsec) :
    mult < 2 ^ 32 ∧ maxsec * fromHz * mult < 2 ^ 64 := by
  have hrange : maxsec * fromHz < 2 ^ 32 * 2 ^ 32 := Nat.mul_lt_mul'' hsec hfrom
  unfold clocksourceSftacc at hmult
  rw [wrap64_of_lt (by omega), Nat.shiftRight_eq_div_pow] at hmult
  generalize maxsec * fromHz = range at *
  obtain ⟨-, hle, hfit⟩ := sftaccLoop_spec (range / 2 ^ 32) (le_refl 32) (by omega)
  generalize sftaccLoop (range / 2 ^ 32) 32 = s at *
  have hrange' : range < 2 ^ (32 - s) * 2 ^ 32 := (Nat.div_lt_iff_lt_mul (by norm_num)).mp hfit
  refine ⟨hmult.trans_le (Nat.pow_le_pow_right two_pos hle), ?_⟩
  calc range * mult < 2 ^ (32 - s) * 2 ^ 32 * 2 ^ s := Nat.mul_lt_mul'' hrange' hmult
    _ = 2 ^ 64 := by rw [← pow_add, ← pow_add, show 32 - s + 32 + s = 64 by omega]

theorem clocksourceFactor_eq (hfrom : fromHz < 2 ^ 32) (hto : toHz < 2 ^ 32) (hsft : sft ≤ 32) :
    clocksourceFactor fromHz toHz sft = (toHz * 2 ^ sft + fromHz / 2) / fromHz := by
  have hmul : toHz * 2 ^ sft ≤ (2 ^ 32 - 1) * 2 ^ 32 :=
    Nat.mul_le_mul (by omega) (Nat.pow_le_pow_right (by omega) hsft)
  rw [clocksourceFactor, Nat.shiftLeft_eq]
  generalize toHz * 2 ^ sft = product at hmul
  rw [wrap64_of_lt (x := product) (by omega), wrap64_of_lt (by omega)]

/-- `m` is `num / den`, rounded to nearest. -/
def Nearest (m num den : ℕ) : Prop :=
  2 * (m * den) ≤ 2 * num + den ∧ 2 * num ≤ 2 * (m * den) + den

theorem clocksourceFactor_bounds (hpos : 1 ≤ fromHz) (hfrom : fromHz < 2 ^ 32)
    (hto : toHz < 2 ^ 32) (hsft : sft ≤ 32) :
    clocksourceFactor fromHz toHz sft * fromHz ≤ toHz * 2 ^ sft + fromHz / 2 ∧
      toHz * 2 ^ sft + fromHz / 2 < clocksourceFactor fromHz toHz sft * fromHz + fromHz := by
  rw [clocksourceFactor_eq hfrom hto hsft]
  have hdiv := Nat.div_add_mod' (toHz * 2 ^ sft + fromHz / 2) fromHz
  have hmod := Nat.mod_lt (toHz * 2 ^ sft + fromHz / 2) hpos
  omega

theorem nearest_clocksourceFactor (hpos : 1 ≤ fromHz) (hfrom : fromHz < 2 ^ 32)
    (hto : toHz < 2 ^ 32) (hsft : sft ≤ 32) :
    Nearest (clocksourceFactor fromHz toHz sft) (toHz * 2 ^ sft) fromHz := by
  obtain ⟨hlo, hhi⟩ := clocksourceFactor_bounds hpos hfrom hto hsft
  unfold Nearest
  omega

theorem clocksourceLoop_spec (fromHz toHz sftacc sft tmp : ℕ) :
    (∃ s, 0 < s ∧ s ≤ sft ∧ clocksourceFactor fromHz toHz s < 2 ^ sftacc ∧
      (∀ s', s' ≤ sft → clocksourceFactor fromHz toHz s' < 2 ^ sftacc → s' ≤ s) ∧
      clocksourceLoop fromHz toHz sftacc tmp sft = (clocksourceFactor fromHz toHz s, s)) ∨
    ((∀ s, 0 < s → s ≤ sft → 2 ^ sftacc ≤ clocksourceFactor fromHz toHz s) ∧
      clocksourceLoop fromHz toHz sftacc tmp sft =
        (if sft = 0 then tmp else clocksourceFactor fromHz toHz 1, 0)) := by
  induction sft generalizing tmp with
  | zero => exact Or.inr ⟨fun s hpos hle => by omega, rfl⟩
  | succ sft ih =>
    have hbits : clocksourceFactor fromHz toHz (sft + 1) >>> sftacc = 0 ↔
        clocksourceFactor fromHz toHz (sft + 1) < 2 ^ sftacc := by
      rw [Nat.shiftRight_eq_div_pow, Nat.div_eq_zero_iff_lt (Nat.two_pow_pos _)]
    rw [clocksourceLoop]
    by_cases hfits : clocksourceFactor fromHz toHz (sft + 1) < 2 ^ sftacc
    · rw [if_pos (hbits.mpr hfits)]
      exact Or.inl ⟨sft + 1, by omega, le_rfl, hfits, fun s' hs' _ => hs', rfl⟩
    · rw [if_neg (hbits.not.mpr hfits)]
      rcases ih (clocksourceFactor fromHz toHz (sft + 1)) with
        ⟨s, hpos, hle, hlt, hmax, heq⟩ | ⟨hall, heq⟩
      · refine Or.inl ⟨s, hpos, by omega, hlt, fun s' hs' hlt' => hmax s' ?_ hlt', heq⟩
        have hne : s' ≠ sft + 1 := fun h => hfits (h ▸ hlt')
        omega
      · refine Or.inr ⟨fun s hpos hle => ?_, ?_⟩
        · by_cases hlast : s = sft + 1
          · exact hlast ▸ not_lt.mp hfits
          · exact hall s hpos (by omega)
        · rw [heq, if_neg (Nat.succ_ne_zero _)]
          split_ifs with hzero
          · rw [hzero]
          · rfl

/-- **What the factors guarantee**: no product within the range overflows, the factor is rounded to
nearest, and a conversion is off by half a unit of the factor for each cycle, and less than one
nanosecond that is cut off. -/
structure Converts (fromHz toHz maxsec : ℕ) (r : ℕ × ℕ) : Prop where
  fits : ∀ cycles ≤ maxsec * fromHz, cycles * r.1 < 2 ^ 64
  nearest : Nearest r.1 (toHz * 2 ^ r.2) fromHz
  close : ∀ mask, ∀ cycles ≤ maxsec * fromHz,
    let ns := clocksourceDelta2ns ⟨r.1, r.2, mask⟩ cycles
    2 * (ns * 2 ^ r.2 * fromHz) ≤ cycles * (2 * (toHz * 2 ^ r.2) + fromHz) ∧
      cycles * (2 * (toHz * 2 ^ r.2)) ≤ 2 * ((ns + 1) * 2 ^ r.2 * fromHz) + cycles * fromHz

theorem Converts.of_nearest {r : ℕ × ℕ} (hfits : maxsec * fromHz * r.1 < 2 ^ 64)
    (hnear : Nearest r.1 (toHz * 2 ^ r.2) fromHz) : Converts fromHz toHz maxsec r := by
  have hall : ∀ cycles ≤ maxsec * fromHz, cycles * r.1 < 2 ^ 64 := fun cycles hle =>
    (Nat.mul_le_mul_right _ hle).trans_lt hfits
  refine ⟨hall, hnear, fun mask cycles hle => ?_⟩
  obtain ⟨hlo, hhi⟩ := hnear
  dsimp only [clocksourceDelta2ns]
  rw [wrap64_of_lt (hall cycles hle), Nat.shiftRight_eq_div_pow]
  have hdiv := Nat.div_add_mod' (cycles * r.1) (2 ^ r.2)
  have hmod := Nat.mod_lt (cycles * r.1) (Nat.two_pow_pos r.2)
  generalize cycles * r.1 / 2 ^ r.2 = ns at *
  have hdown : ns * 2 ^ r.2 ≤ cycles * r.1 := by omega
  have hup : cycles * r.1 ≤ (ns + 1) * 2 ^ r.2 := by
    rw [add_one_mul]
    omega
  constructor
  · calc 2 * (ns * 2 ^ r.2 * fromHz) ≤ 2 * (cycles * r.1 * fromHz) := by gcongr
      _ = cycles * (2 * (r.1 * fromHz)) := by ring
      _ ≤ cycles * (2 * (toHz * 2 ^ r.2) + fromHz) := by gcongr
  · calc cycles * (2 * (toHz * 2 ^ r.2)) ≤ cycles * (2 * (r.1 * fromHz) + fromHz) := by gcongr
      _ = 2 * (cycles * r.1 * fromHz) + cycles * fromHz := by ring
      _ ≤ 2 * ((ns + 1) * 2 ^ r.2 * fromHz) + cycles * fromHz := by gcongr

theorem clocksourceCalcMultShift_of_dvd (h : fromHz ∣ toHz) :
    clocksourceCalcMultShift fromHz toHz maxsec = (toHz / fromHz, 0) :=
  if_pos (Nat.div_mul_cancel h)

theorem clocksourceCalcMultShift_of_not_dvd (h : ¬ fromHz ∣ toHz) :
    clocksourceCalcMultShift fromHz toHz maxsec =
      ((clocksourceLoop fromHz toHz (clocksourceSftacc fromHz maxsec) 0 32).1 % 2 ^ 32,
        (clocksourceLoop fromHz toHz (clocksourceSftacc fromHz maxsec) 0 32).2) :=
  if_neg fun heq => h (Dvd.intro_left _ heq)

/-- **The two ends of the search**: the largest shift that fits, or the shift 0 with the factor of
the shift 1. -/
theorem clocksourceCalcMultShift_cases (hpos : 1 ≤ fromHz) (hfrom : fromHz < 2 ^ 32)
    (hto : toHz < 2 ^ 32) (hsec : maxsec < 2 ^ 32) (hnd : ¬ fromHz ∣ toHz) :
    (∃ s ≤ 32, clocksourceFactor fromHz toHz s < 2 ^ clocksourceSftacc fromHz maxsec ∧
      (∀ s' ≤ 32, clocksourceFactor fromHz toHz s' < 2 ^ clocksourceSftacc fromHz maxsec →
        s' ≤ s) ∧ clocksourceFactor fromHz toHz 1 < 2 ^ clocksourceSftacc fromHz maxsec ∧
      clocksourceCalcMultShift fromHz toHz maxsec = (clocksourceFactor fromHz toHz s, s)) ∨
    ((∀ s, 0 < s → s ≤ 32 →
        2 ^ clocksourceSftacc fromHz maxsec ≤ clocksourceFactor fromHz toHz s) ∧
      clocksourceCalcMultShift fromHz toHz maxsec = (clocksourceFactor fromHz toHz 1, 0)) := by
  rw [clocksourceCalcMultShift_of_not_dvd hnd]
  rcases clocksourceLoop_spec fromHz toHz (clocksourceSftacc fromHz maxsec) 32 0 with
    ⟨s, hs, hle, hfits, hmax, heq⟩ | ⟨hall, heq⟩
  · have hmono : clocksourceFactor fromHz toHz 1 ≤ clocksourceFactor fromHz toHz s := by
      rw [clocksourceFactor_eq hfrom hto (by norm_num), clocksourceFactor_eq hfrom hto hle]
      gcongr
      · norm_num
      · exact hs
    refine Or.inl ⟨s, hle, hfits, hmax, hmono.trans_lt hfits, ?_⟩
    rw [heq]
    exact Prod.ext (Nat.mod_eq_of_lt (clocksourceSftacc_spec hfrom hsec hfits).1) rfl
  · refine Or.inr ⟨hall, ?_⟩
    rw [heq]
    -- a rate of one divides every other, so the doubled frequency is halved again
    have htwo : 2 ≤ fromHz := by
      by_contra hlt
      exact hnd (by rw [show fromHz = 1 by omega]; exact one_dvd _)
    have hsmall : clocksourceFactor fromHz toHz 1 < 2 ^ 32 := by
      rw [clocksourceFactor_eq hfrom hto (by norm_num), Nat.div_lt_iff_lt_mul hpos]
      omega
    exact Prod.ext (Nat.mod_eq_of_lt hsmall) rfl

theorem nearest_exhausted_iff (hpos : 1 ≤ fromHz) (hfrom : fromHz < 2 ^ 32) (hto : toHz < 2 ^ 32)
    (hone : 1 ≤ clocksourceFactor fromHz toHz 1) :
    Nearest (clocksourceFactor fromHz toHz 1) (toHz * 2 ^ 0) fromHz ↔
      clocksourceFactor fromHz toHz 1 = clocksourceFactor fromHz toHz 0 := by
  obtain ⟨hlo, hhi⟩ := clocksourceFactor_bounds hpos hfrom hto (show 1 ≤ 32 by norm_num)
  constructor
  · rintro ⟨hlo', -⟩
    have hlt : clocksourceFactor fromHz toHz 1 * fromHz < 2 * fromHz := by omega
    have heq : clocksourceFactor fromHz toHz 1 = 1 := by
      have := Nat.lt_of_mul_lt_mul_right hlt
      omega
    rw [heq] at hlo hlo' hhi ⊢
    rw [clocksourceFactor_eq hfrom hto (by norm_num)]
    symm
    rw [Nat.div_eq_iff (by omega)]
    omega
  · intro heq
    rw [heq]
    exact nearest_clocksourceFactor hpos hfrom hto (Nat.zero_le _)

/-- **The search for the factors keeps its guarantee** exactly if the frequencies divide, if some
shift is found, or if the factor of the shift 1, with which an exhausted search ends, is also that
of the shift 0.

**Proof sketch.** A factor that is found has `sftacc` bits, and the range at most `64 - sftacc`.
The search that is exhausted pairs the factor of the shift 1 with the shift 0.  This is rounded to
nearest only if it is 1, and then its products are within the range itself. -/
theorem converts_iff (hfrom : 1 ≤ fromHz) (hfrom' : fromHz < 2 ^ 32) (hto' : toHz < 2 ^ 32)
    (hsec' : maxsec < 2 ^ 32) :
    Converts fromHz toHz maxsec (clocksourceCalcMultShift fromHz toHz maxsec) ↔
      fromHz ∣ toHz ∨ clocksourceFactor fromHz toHz 1 < 2 ^ clocksourceSftacc fromHz maxsec ∨
      clocksourceFactor fromHz toHz 1 = clocksourceFactor fromHz toHz 0 := by
  by_cases hdvd : fromHz ∣ toHz
  · refine iff_of_true ?_ (Or.inl hdvd)
    rw [clocksourceCalcMultShift_of_dvd hdvd]
    refine .of_nearest ?_ ?_
    · dsimp only
      rw [mul_assoc, Nat.mul_div_cancel' hdvd]
      exact (Nat.mul_lt_mul'' hsec' hto').trans_eq (by norm_num)
    · simp only [Nearest, Nat.div_mul_cancel hdvd, pow_zero, mul_one]
      omega
  rcases clocksourceCalcMultShift_cases hfrom hfrom' hto' hsec' hdvd with
    ⟨s, hs, hfits, -, hlt, heq⟩ | ⟨hall, heq⟩
  · refine iff_of_true ?_ (Or.inr (Or.inl hlt))
    rw [heq]
    exact .of_nearest (clocksourceSftacc_spec hfrom' hsec' hfits).2
      (nearest_clocksourceFactor hfrom hfrom' hto' hs)
  · have hge := hall 1 one_pos (by norm_num)
    have hone : 1 ≤ clocksourceFactor fromHz toHz 1 := Nat.one_le_two_pow.trans hge
    have hnear := nearest_exhausted_iff hfrom hfrom' hto' hone
    rw [heq]
    refine ⟨fun h => Or.inr (Or.inr (hnear.mp h.nearest)), ?_⟩
    rintro (h | h | h)
    · exact absurd h hdvd
    · exact absurd h (not_lt.mpr hge)
    · have hbounds := clocksourceFactor_bounds hfrom hfrom' hto' (show 1 ≤ 32 by norm_num)
      have hbounds' := clocksourceFactor_bounds hfrom hfrom' hto' (Nat.zero_le 32)
      rw [← h] at hbounds'
      have hle : clocksourceFactor fromHz toHz 1 < 2 :=
        Nat.lt_of_mul_lt_mul_right (a := fromHz) (by omega)
      refine .of_nearest ?_ (hnear.mpr h)
      rw [show clocksourceFactor fromHz toHz 1 = 1 by omega, mul_one]
      exact (Nat.mul_lt_mul'' hsec' hfrom').trans_eq (by norm_num)

/-- A counter of 3 Hz, whose factors are those of the shift 3. -/
theorem converts_iff_found :
    Converts 3 1000000000 10 (clocksourceCalcMultShift 3 1000000000 10) ↔
      3 ∣ 1000000000 ∨ clocksourceFactor 3 1000000000 1 < 2 ^ clocksourceSftacc 3 10 ∨
      clocksourceFactor 3 1000000000 1 = clocksourceFactor 3 1000000000 0 :=
  converts_iff (by norm_num) (by norm_num) (by norm_num) (by norm_num)

/-- An exhausted search: from 4 Hz to almost 4.3 GHz over the longest time, the factor is twice what
it is to be, and its product with the longest time overflows. -/
theorem not_converts :
    clocksourceCalcMultShift 4 (2 ^ 32 - 1) (2 ^ 32 - 1) = (2 ^ 31, 0) ∧
      ¬ Nearest (2 ^ 31) ((2 ^ 32 - 1) * 2 ^ 0) 4 ∧ 2 ^ 64 ≤ (2 ^ 32 - 1) * 4 * 2 ^ 31 := by
  have hsftacc : clocksourceSftacc 4 (2 ^ 32 - 1) = 30 := by
    unfold clocksourceSftacc
    rw [wrap64_of_lt (by norm_num)]
    simp [sftaccLoop]
  have hfactor : clocksourceFactor 4 (2 ^ 32 - 1) 1 = 2 ^ 31 :=
    clocksourceFactor_eq (by norm_num) (by norm_num) (by norm_num)
  refine ⟨?_, by simp [Nearest], by norm_num⟩
  rcases clocksourceCalcMultShift_cases (show 1 ≤ 4 by norm_num) (by norm_num)
    (show 2 ^ 32 - 1 < 2 ^ 32 by norm_num) (show 2 ^ 32 - 1 < 2 ^ 32 by norm_num) (by norm_num)
    with ⟨s, -, -, -, hlt, -⟩ | ⟨-, heq⟩
  · rw [hsftacc, hfactor] at hlt
    norm_num at hlt
  · rw [heq, hfactor]

/-! ## The monotonic clock -/

/-- **The clock of a counter rate is monotonic**, for all readings whose true time is below
`2 ^ 63` nanoseconds, and a deadline is not past when it is computed. -/
def Monotonic (rate : ℕ) : Prop :=
  ∀ c₁ c₂, c₁ ≤ c₂ → c₂ < 2 ^ 64 → c₂ * 1000000000 < 2 ^ 63 * rate →
    ktimeGet (some (csClintTimerProbe rate)) c₁ ≤ ktimeGet (some (csClintTimerProbe rate)) c₂ ∧
    ∀ d, 0 ≤ d → ktimeGet (some (csClintTimerProbe rate)) c₁ + d < 2 ^ 63 →
      ktimeGet (some (csClintTimerProbe rate)) c₁ ≤
        sysDeadlineAfter (some (csClintTimerProbe rate)) c₁ d

theorem ktimeGet_probe (rate : ℕ) {c : ℕ} (hc : c < 2 ^ 64) :
    ktimeGet (some (csClintTimerProbe rate)) c =
      toInt64 (wrap64 (c * (csClintTimerProbe rate).mult) / 2 ^ (csClintTimerProbe rate).shift :
        ℕ) := by
  have hmask : clocksourceCycle (csClintTimerProbe rate) c = c := by
    dsimp only [clocksourceCycle, csClintTimerProbe]
    rw [Nat.and_two_pow_sub_one_eq_mod, Nat.mod_eq_of_lt hc]
  simp only [ktimeGet, clocksourceKeeperRead, clocksourceDelta2ns, hmask,
    Nat.shiftRight_eq_div_pow]

theorem toInt64_natCast {x : ℕ} (h : x < 2 ^ 63) : toInt64 x = x := by
  unfold toInt64
  omega

theorem le_sysDeadlineAfter (cs : Option Clocksource) (c : ℕ) {d : ℤ} (hd : 0 ≤ d)
    (hrep : ktimeGet cs c + d < 2 ^ 63) : ktimeGet cs c ≤ sysDeadlineAfter cs c d := by
  have hlo : -2 ^ 63 ≤ ktimeGet cs c := by
    unfold ktimeGet clocksourceKeeperRead toInt64
    split <;> omega
  unfold sysDeadlineAfter toInt64
  omega

theorem ktimeGet_mono {rate c₁ c₂ : ℕ} (hle : c₁ ≤ c₂) (hc : c₂ < 2 ^ 64)
    (hfits : c₂ * (csClintTimerProbe rate).mult < 2 ^ 64)
    (hrep : c₂ * (csClintTimerProbe rate).mult / 2 ^ (csClintTimerProbe rate).shift < 2 ^ 63) :
    ktimeGet (some (csClintTimerProbe rate)) c₁ ≤ ktimeGet (some (csClintTimerProbe rate)) c₂ := by
  have hmul := Nat.mul_le_mul_right (csClintTimerProbe rate).mult hle
  have hdiv := Nat.div_le_div_right (c := 2 ^ (csClintTimerProbe rate).shift) hmul
  rw [ktimeGet_probe rate (by omega), ktimeGet_probe rate hc, wrap64_of_lt (by omega), wrap64_of_lt hfits,
    toInt64_natCast (by omega), toInt64_natCast hrep]
  exact_mod_cast hdiv

theorem csClintTimerProbe_of_not_dvd {rate : ℕ} (hpos : 1 ≤ rate) (hrate : rate < 2 ^ 32)
    (hnd : ¬ rate ∣ 1000000000) :
    3 ≤ (csClintTimerProbe rate).shift ∧ (csClintTimerProbe rate).shift ≤ 32 ∧
      2 ≤ (csClintTimerProbe rate).mult ∧ (csClintTimerProbe rate).mult < 2 ^ 32 ∧
      Nearest (csClintTimerProbe rate).mult (1000000000 * 2 ^ (csClintTimerProbe rate).shift)
        rate := by
  have hthree : 3 ≤ rate := by
    by_contra hlt
    rcases (show rate = 1 ∨ rate = 2 by omega) with rfl | rfl <;> norm_num at hnd
  have hgood : clocksourceFactor rate 1000000000 3 < 2 ^ clocksourceSftacc rate 10 := by
    rw [clocksourceFactor_eq hrate (by norm_num) (by norm_num)]
    unfold clocksourceSftacc
    rw [wrap64_of_lt (by omega), Nat.shiftRight_eq_div_pow]
    rcases Nat.lt_or_ge (10 * rate) (2 ^ 32) with hsmall | hlarge
    · rw [Nat.div_eq_of_lt hsmall, sftaccLoop, if_pos rfl, Nat.div_lt_iff_lt_mul (by omega)]
      omega
    · have hspec := sftaccLoop_spec (10 * rate / 2 ^ 32) (show 4 ≤ 32 by norm_num) (by omega)
      refine lt_of_lt_of_le ?_ (Nat.pow_le_pow_right two_pos hspec.1)
      rw [Nat.div_lt_iff_lt_mul (by omega)]
      omega
  obtain ⟨s, hhi, hfits, hmax, -, heq⟩ := (clocksourceCalcMultShift_cases hpos hrate
    (show 1000000000 < 2 ^ 32 by norm_num) (show 10 < 2 ^ 32 by norm_num) hnd).resolve_right
    fun h => absurd hgood (not_lt.mpr (h.1 3 (by norm_num) (by norm_num)))
  have hlo := hmax 3 (by norm_num) hgood
  have hnear := nearest_clocksourceFactor hpos hrate (show 1000000000 < 2 ^ 32 by norm_num) hhi
  have hprobe : csClintTimerProbe rate =
      ⟨clocksourceFactor rate 1000000000 s, s, 2 ^ 64 - 1⟩ := by
    simp only [csClintTimerProbe, Nat.mod_eq_of_lt hrate, heq]
  rw [hprobe]
  refine ⟨hlo, hhi, ?_, (clocksourceSftacc_spec hrate (by norm_num) hfits).1, hnear⟩
  have height : 8 ≤ 2 ^ s := Nat.pow_le_pow_right two_pos hlo
  obtain ⟨-, hup⟩ := hnear
  by_contra hlt
  have hle : clocksourceFactor rate 1000000000 s * rate ≤ 1 * rate :=
    Nat.mul_le_mul_right _ (by dsimp only at hlt; omega)
  omega

theorem not_monotonic_of_not_dvd {rate : ℕ} (hpos : 1 ≤ rate) (hrate : rate < 2 ^ 32)
    (hnd : ¬ rate ∣ 1000000000) : ¬ Monotonic rate := by
  intro hmono
  obtain ⟨hlo, hhi, hmult, hmult', -, hnear⟩ := csClintTimerProbe_of_not_dvd hpos hrate hnd
  have hprobe := fun c => ktimeGet_probe rate (c := c)
  specialize hmono ((2 ^ 64 - 1) / (csClintTimerProbe rate).mult)
    ((2 ^ 64 - 1) / (csClintTimerProbe rate).mult + 1) (Nat.le_succ _)
  generalize (csClintTimerProbe rate).mult = m at *
  generalize (csClintTimerProbe rate).shift = s at *
  have hdiv := Nat.div_add_mod' (2 ^ 64 - 1) m
  have hmod := Nat.mod_lt (2 ^ 64 - 1) (show 0 < m by omega)
  have hhalf : (2 ^ 64 - 1) / m ≤ (2 ^ 64 - 1) / 2 := Nat.div_le_div_left hmult two_pos
  generalize (2 ^ 64 - 1) / m = c at *
  have height : 8 ≤ 2 ^ s := Nat.pow_le_pow_right two_pos hlo
  have h32 : 2 ^ s ≤ 2 ^ 32 := Nat.pow_le_pow_right two_pos hhi
  have hsucc : (c + 1) * m = c * m + m := add_one_mul c m
  -- the true time of the reading is about `2 ^ (64 - s)` nanoseconds
  have htime : (c + 1) * 1000000000 < 2 ^ 63 * rate := by
    refine Nat.lt_of_mul_lt_mul_right (a := 16) ?_
    calc (c + 1) * 1000000000 * 16 = (c + 1) * (2 * (1000000000 * 8)) := by ring
      _ ≤ (c + 1) * (2 * (1000000000 * 2 ^ s)) := by gcongr
      _ ≤ (c + 1) * (2 * (m * rate) + rate) := by gcongr
      _ = (2 * ((c + 1) * m) + (c + 1)) * rate := by ring
      _ < 2 ^ 67 * rate := Nat.mul_lt_mul_of_pos_right (by omega) hpos
      _ = 2 ^ 63 * rate * 16 := by ring
  obtain ⟨hle, -⟩ := hmono (by omega) htime
  have hwrap : wrap64 ((c + 1) * m) = c * m + m - 2 ^ 64 := by
    unfold wrap64
    omega
  have hback : (c * m + m - 2 ^ 64) / 2 ^ s < c * m / 2 ^ s :=
    calc (c * m + m - 2 ^ 64) / 2 ^ s < (c * m + m - 2 ^ 64) / 2 ^ s + 1 := Nat.lt_succ_self _
      _ = (c * m + m - 2 ^ 64 + 2 ^ s) / 2 ^ s := (Nat.add_div_right _ (by omega)).symm
      _ ≤ c * m / 2 ^ s := Nat.div_le_div_right (by omega)
  have hbound : c * m / 2 ^ s < 2 ^ 63 :=
    (Nat.div_le_div_left height (by norm_num)).trans_lt (by omega)
  rw [hprobe _ (by omega), hprobe _ (by omega), hwrap, wrap64_of_lt (by omega),
    toInt64_natCast hbound, toInt64_natCast (hback.trans hbound)] at hle
  omega

/-- **The monotonic clock is monotonic exactly for the rates that divide a billion.** -/
theorem monotonic_iff {rate : ℕ} (hpos : 1 ≤ rate) (hrate : rate < 2 ^ 32) :
    Monotonic rate ↔ rate ∣ 1000000000 := by
  refine ⟨fun h => by_contra fun hnd => not_monotonic_of_not_dvd hpos hrate hnd h, fun hdvd => ?_⟩
  intro c₁ c₂ hle hc htime
  refine ⟨?_, fun d hd hrep => le_sysDeadlineAfter _ _ hd hrep⟩
  have hprobe : csClintTimerProbe rate = ⟨1000000000 / rate, 0, 2 ^ 64 - 1⟩ := by
    simp only [csClintTimerProbe, Nat.mod_eq_of_lt hrate, clocksourceCalcMultShift_of_dvd hdvd]
  have hfits : c₂ * (1000000000 / rate) < 2 ^ 63 := by
    refine Nat.lt_of_mul_lt_mul_right (a := rate) ?_
    rw [mul_assoc, Nat.div_mul_cancel hdvd]
    exact htime
  refine ktimeGet_mono hle hc ?_ ?_ <;> rw [hprobe]
  · exact hfits.trans (by norm_num)
  · exact (Nat.div_le_self _ _).trans_lt hfits

/-- The counter of 10 MHz that the kernel is configured for. -/
theorem monotonic_iff_qemu : Monotonic 10000000 ↔ 10000000 ∣ 1000000000 :=
  monotonic_iff (by norm_num) (by norm_num)

/-- The clock of a counter of 3 Hz goes back, after about 73 years. -/
theorem ktimeGet_goes_back :
    6917529027 * 1000000000 < 2 ^ 63 * 3 ∧
      ktimeGet (some (csClintTimerProbe 3)) 6917529026 = 2305843008954897042 ∧
      ktimeGet (some (csClintTimerProbe 3)) 6917529027 = 74536424 := by
  have hsftacc : clocksourceSftacc 3 10 = 32 := by
    unfold clocksourceSftacc
    rw [wrap64_of_lt (by norm_num)]
    simp [sftaccLoop]
  have hloop : clocksourceLoop 3 1000000000 32 0 32 = (2666666667, 3) := by decide +kernel
  have hprobe : csClintTimerProbe 3 = ⟨2666666667, 3, 2 ^ 64 - 1⟩ := by
    simp only [csClintTimerProbe, Nat.reduceMod, Nat.reducePow,
      clocksourceCalcMultShift_of_not_dvd (show ¬ 3 ∣ 1000000000 by norm_num), hsftacc, hloop]
  rw [hprobe]
  exact ⟨by norm_num, by decide +kernel, by decide +kernel⟩

end Ginkgo.Driver
