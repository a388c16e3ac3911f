/-
# Rfc3339 — the certificate's expiry as a calendar date.

`chrono_rfc3339` (`acme/mod.rs`) works in 400-year eras that begin in March.  Operations that could leave the
range of their machine integer are checked in the model, so a run without overflow is a run that returns.
-/
import Mathlib.Tactic.IntervalCases
import Dnsd.Lib.Gregorian

namespace Dnsd.Daemon.Acme

open Lib.Gregorian Finset

inductive Overflow where
  | overflow
  deriving DecidableEq, Repr

def i64 (x : Int) : Except Overflow Int :=
  if -2 ^ 63 ≤ x ∧ x < 2 ^ 63 then .ok x else .error .overflow

def u32 (n : Nat) : Except Overflow Nat := if n < 2 ^ 32 then .ok n else .error .overflow

def subU32 (a b : Nat) : Except Overflow Nat := if b ≤ a then .ok (a - b) else .error .overflow

def asU32 (x : Int) : Nat := (x % 2 ^ 32).toNat

def padded (width : Nat) (x : Int) : List Char :=
  let digits := Nat.toDigits 10 x.natAbs
  if x < 0 then '-' :: (List.replicate (width - 1 - digits.length) '0' ++ digits)
  else List.replicate (width - digits.length) '0' ++ digits

def rfc3339 (y : Int) (m d hh mm ss : Nat) : String :=
  String.ofList (padded 4 y ++ '-' :: padded 2 m ++ '-' :: padded 2 d ++ 'T' :: padded 2 hh ++
    ':' :: padded 2 mm ++ ':' :: padded 2 ss ++ ['Z'])

def yearOfEra (doe : Nat) : Except Overflow Nat := do
  let n ← subU32 doe (doe / 1460)
  let n ← u32 (n + doe / 36524)
  let n ← subU32 n (doe / 146096)
  return n / 365

def dayOfYear (doe yoe : Nat) : Except Overflow Nat := do
  let n ← u32 (365 * yoe)
  let n ← u32 (n + yoe / 4)
  let n ← subU32 n (yoe / 100)
  subU32 doe n

def monthDay (doy : Nat) : Except Overflow (Nat × Nat) := do
  let n ← u32 (5 * doy)
  let n ← u32 (n + 2)
  let mp := n / 153
  let n ← u32 (153 * mp)
  let n ← u32 (n + 2)
  let n ← subU32 doy (n / 5)
  let d ← u32 (n + 1)
  let m ← if mp < 10 then u32 (mp + 3) else subU32 mp 9
  return (m, d)

def chronoRfc3339 (unix : Int) : Except Overflow (Option String) := do
  if unix < 0 then
    return none
  let secsOfDay := asU32 (unix.tmod 86400)
  let hh := secsOfDay / 3600
  let mm := secsOfDay % 3600 / 60
  let ss := secsOfDay % 60
  let days ← i64 (unix.tdiv 86400 + 719468)
  let era := days / 146097
  let doe := asU32 (days % 146097)
  let yoe ← yearOfEra doe
  let n ← i64 (era * 400)
  let y ← i64 (yoe + n)
  let doy ← dayOfYear doe yoe
  let (m, d) ← monthDay doy
  let y ← if m ≤ 2 then i64 (y + 1) else pure y
  return some (rfc3339 y m d hh mm ss)

/-! ## The arithmetic of an era -/

theorem i64_ok {x : Int} (h : 0 ≤ x ∧ x < 2 ^ 63) : i64 x = pure x := if_pos ⟨by omega, h.2⟩

theorem u32_ok {n : Nat} (h : n < 2 ^ 32) : u32 n = pure n := if_pos h

theorem subU32_ok {a b : Nat} (h : b ≤ a) : subU32 a b = pure (a - b) := if_pos h

theorem exists_cycles {doe : Nat} (h : doe < 146097) : ∃ c q r s, c < 4 ∧ q < 25 ∧ r < 4 ∧
    (s < 365 ∨ s = 365 ∧ r = 3 ∧ (q < 24 ∨ c = 3)) ∧ doe = 36524 * c + 1461 * q + 365 * r + s := by
  obtain ⟨c, t, hc, ht, htc, rfl⟩ : ∃ c t, c < 4 ∧ t < 36525 ∧ (t = 36524 → c = 3) ∧ doe = 36524 * c + t :=
    ⟨min 3 (doe / 36524), doe - 36524 * min 3 (doe / 36524), by omega⟩
  refine ⟨c, t / 1461, min 3 (t % 1461 / 365), t % 1461 - 365 * min 3 (t % 1461 / 365), ?_⟩
  omega

theorem yearOfEra_cycles {doe c q r s : Nat} (hc : c < 4) (hq : q < 25) (hr : r < 4)
    (hs : s < 365 ∨ s = 365 ∧ r = 3 ∧ (q < 24 ∨ c = 3)) (h : doe = 36524 * c + 1461 * q + 365 * r + s) :
    yearOfEra doe = pure (100 * c + 4 * q + r) := by
  have hcentury : doe / 36524 = c + doe / 146096 := by
    rcases Nat.lt_or_ge doe 146096 with hl | hl
    · have : doe < 36524 * (c + 1) := by omega
      omega
    · omega
  have hyear : (doe - doe / 1460 + doe / 36524 - doe / 146096) / 365 = 100 * c + 4 * q + r := by
    by_cases he : 24 * c + q + 365 * r + s < 1460
    · have : doe / 1460 = 25 * c + q := by omega
      omega
    · have : doe / 1460 = 25 * c + q + 1 := by omega
      omega
  unfold yearOfEra
  rw [subU32_ok (by omega), pure_bind, u32_ok (by omega), pure_bind, subU32_ok (by omega), pure_bind, hyear]

theorem era_spec {doe : Nat} (h : doe < 146097) : ∃ yoe doy, yoe < 400 ∧
    (doy < 365 ∨ doy = 365 ∧ IsLeap (yoe + 1)) ∧ doe + yoe / 100 = 365 * yoe + yoe / 4 + doy ∧
    yearOfEra doe = pure yoe ∧ dayOfYear doe yoe = pure doy := by
  obtain ⟨c, q, r, s, hc, hq, hr, hs, hdoe⟩ := exists_cycles h
  have h4 : (100 * c + 4 * q + r) / 4 = 25 * c + q := by omega
  have h100 : (100 * c + 4 * q + r) / 100 = c := by omega
  refine ⟨100 * c + 4 * q + r, s, by omega, ?_, by omega, yearOfEra_cycles hc hq hr hs hdoe, ?_⟩
  · unfold IsLeap
    omega
  · unfold dayOfYear
    rw [u32_ok (by omega), pure_bind, u32_ok (by omega), pure_bind, subU32_ok (by omega), pure_bind,
      subU32_ok (by omega)]
    congr 1
    omega

theorem monthDay_spec {doy : Nat} (h : doy < 366) : ∃ mp, mp < 12 ∧ (153 * mp + 2) / 5 ≤ doy ∧
    doy < (153 * (mp + 1) + 2) / 5 ∧
    monthDay doy = pure (if mp < 10 then mp + 3 else mp - 9, doy - (153 * mp + 2) / 5 + 1) := by
  refine ⟨(5 * doy + 2) / 153, by omega, by omega, by omega, ?_⟩
  unfold monthDay
  rw [u32_ok (by omega), pure_bind, u32_ok (by omega), pure_bind]
  dsimp only
  rw [u32_ok (by omega), pure_bind, u32_ok (by omega), pure_bind, subU32_ok (by omega), pure_bind,
    u32_ok (by omega), pure_bind]
  split
  · rw [u32_ok (by omega), pure_bind]
  · rw [subU32_ok (by omega), pure_bind]

theorem daysInMonth_fromMarch (y : Nat) {mp : Nat} (h : mp < 10) :
    daysInMonth y (mp + 3) + (153 * mp + 2) / 5 = (153 * (mp + 1) + 2) / 5 := by
  interval_cases mp <;> rfl

theorem sum_fromMarch (y : Nat) {mp : Nat} (h : mp < 10) :
    ∑ i ∈ range (mp + 2), daysInMonth y (i + 1) = 31 + daysInMonth y 2 + (153 * mp + 2) / 5 := by
  induction mp with
  | zero => rfl
  | succ mp ih =>
    rw [sum_range_succ, ih (by omega), ← daysInMonth_fromMarch y (by omega : mp < 10)]
    show _ + daysInMonth y (mp + 3) = _
    omega

theorem date_spec {era yoe doy mp : Nat} (hyoe : yoe < 400) (hdoy : doy < 365 ∨ doy = 365 ∧ IsLeap (yoe + 1))
    (hmp : mp < 12) (hle : (153 * mp + 2) / 5 ≤ doy) (hlt : doy < (153 * (mp + 1) + 2) / 5) :
    let m := if mp < 10 then mp + 3 else mp - 9
    let y := if m ≤ 2 then yoe + 400 * era + 1 else yoe + 400 * era
    let d := doy - (153 * mp + 2) / 5 + 1
    (1 ≤ m ∧ m ≤ 12) ∧ (1 ≤ d ∧ d ≤ daysInMonth y m) ∧
      dayNumber y m d + yoe / 100 = 146097 * era + 365 * yoe + yoe / 4 + doy + 60 := by
  have hjan : ∑ i ∈ range (yoe + 400 * era + 1), daysInYear i + yoe / 100 =
      146097 * era + 365 * yoe + yoe / 4 + 366 := by
    have := sum_daysInYear (yoe + 400 * era + 1)
    omega
  by_cases h : mp < 10
  · have hmarch : ∑ i ∈ range (yoe + 400 * era), daysInYear i + yoe / 100 + daysInMonth (yoe + 400 * era) 2 =
        146097 * era + 365 * yoe + yoe / 4 + 29 := by
      rw [sum_range_succ, daysInYear_eq] at hjan
      unfold daysInMonth
      split at hjan <;> simp only [*, if_true, if_false] <;> omega
    have hlen := daysInMonth_fromMarch (yoe + 400 * era) h
    simp only [h, if_true, show ¬ mp + 3 ≤ 2 by omega, if_false, dayNumber,
      show mp + 3 - 1 = mp + 2 from rfl, sum_fromMarch _ h]
    omega
  · obtain rfl | rfl : mp = 10 ∨ mp = 11 := by omega
    · simp [dayNumber, daysInMonth]
      omega
    · have hfeb : doy < 337 + if IsLeap (yoe + 400 * era + 1) then 29 else 28 := by
        split <;> (unfold IsLeap at *; omega)
      simp [dayNumber, daysInMonth]
      omega

/-! ## The text -/

theorem padded_natCast (w n : Nat) : padded w n =
    List.replicate (w - (Nat.toDigits 10 n).length) '0' ++ Nat.toDigits 10 n := by
  unfold padded
  rw [if_neg (by omega)]
  rfl

theorem padded_inj {w a b : Nat} (h : padded w a = padded w b) : a = b := by
  have hread : ∀ n : Nat, Nat.ofDigitChars 10 (padded w n) 0 = n := by
    intro n
    rw [padded_natCast, Nat.ofDigitChars_append, Nat.ofDigitChars_replicate_zero, Nat.mul_zero,
      Nat.ofDigitChars_ten_toDigits]
  rw [← hread a, h, hread b]

theorem length_padded_two {n : Nat} (h : n < 100) : (padded 2 n).length = 2 := by
  have hlen : (Nat.toDigits 10 n).length ≤ 2 := (Nat.length_toDigits_le_iff (by decide) (by decide)).mpr h
  rw [padded_natCast, List.length_append, List.length_replicate]
  omega

theorem field_inj {xs ys : List Char} {c : Char} {a b : Nat} (ha : a < 100) (hb : b < 100)
    (h : xs ++ c :: padded 2 a = ys ++ c :: padded 2 b) : xs = ys ∧ a = b := by
  have hlen := (length_padded_two ha).trans (length_padded_two hb).symm
  obtain ⟨hx, hp⟩ := List.append_inj' h (congrArg Nat.succ hlen)
  exact ⟨hx, padded_inj (List.cons.inj hp).2⟩

def text (t : DateTime) : String := rfc3339 t.year t.month t.day t.hour t.minute t.second

theorem daysInMonth_le (y m : Nat) : daysInMonth y m ≤ 31 := by
  unfold daysInMonth
  split
  · split <;> decide
  all_goals decide

theorem unixTime_of_text {t t' : DateTime} (h : text t = text t') : t.unixTime = t'.unixTime := by
  have hd : ∀ t : DateTime, t.day < 100 := fun t =>
    lt_of_le_of_lt (t.day_mem.2.trans (daysInMonth_le _ _)) (by decide)
  have hchars := List.append_cancel_right (String.ofList_inj.mp h)
  obtain ⟨h, hss⟩ := field_inj (by have := t.second_lt; omega) (by have := t'.second_lt; omega) hchars
  obtain ⟨h, hmm⟩ := field_inj (by have := t.minute_lt; omega) (by have := t'.minute_lt; omega) h
  obtain ⟨h, hhh⟩ := field_inj (by have := t.hour_lt; omega) (by have := t'.hour_lt; omega) h
  obtain ⟨h, hday⟩ := field_inj (hd t) (hd t') h
  obtain ⟨h, hm⟩ := field_inj (by have := t.month_mem; omega) (by have := t'.month_mem; omega) h
  rw [DateTime.unixTime_eq, DateTime.unixTime_eq, DateTime.seconds, DateTime.seconds, padded_inj h, hm, hday,
    hhh, hmm, hss]

theorem chronoRfc3339_spec {n : Nat} (h : n < 2 ^ 63) :
    ∃ t : DateTime, chronoRfc3339 n = .ok (some (text t)) ∧ t.unixTime = n := by
  generalize hD : n / 86400 + 719468 = D
  obtain ⟨yoe, doy, hyoe, hdoy, hdoe, hyear, hday⟩ := era_spec (Nat.mod_lt D (by decide))
  obtain ⟨mp, hmp, hle, hlt, hmonth⟩ := monthDay_spec (by omega : doy < 366)
  obtain ⟨hm, hd, hnum⟩ := @date_spec (D / 146097) yoe doy mp hyoe hdoy hmp hle hlt
  generalize (if mp < 10 then mp + 3 else mp - 9) = m at hmonth hm hd hnum
  generalize doy - (153 * mp + 2) / 5 + 1 = d at hmonth hd hnum
  refine ⟨⟨_, m, d, n % 86400 / 3600, n % 86400 % 3600 / 60, n % 86400 % 60, hm, hd, by omega, by omega,
    by omega⟩, ?_, ?_⟩
  · have hsecs : asU32 ((n : Int).tmod 86400) = n % 86400 := by
      rw [Int.tmod_eq_emod_of_nonneg (Int.natCast_nonneg n)]
      unfold asU32
      omega
    have hdays : (n : Int).tdiv 86400 + 719468 = D := by
      rw [Int.tdiv_eq_ediv_of_nonneg (Int.natCast_nonneg n)]
      omega
    have hdoe' : asU32 ((D : Int) % 146097) = D % 146097 := by
      unfold asU32
      omega
    unfold chronoRfc3339
    rw [if_neg (by omega), hsecs]
    dsimp only
    rw [hdays, i64_ok (by omega), pure_bind, hdoe', hyear, pure_bind, i64_ok (by omega), pure_bind,
      i64_ok (by omega), pure_bind, hday, pure_bind, hmonth, pure_bind]
    dsimp only
    split
    · rw [i64_ok (by omega), pure_bind]
      refine congrArg (fun y => Except.ok (some (rfc3339 y _ _ _ _ _))) ?_
      dsimp only
      omega
    · refine congrArg (fun y => Except.ok (some (rfc3339 y _ _ _ _ _))) ?_
      dsimp only
      omega
  · rw [DateTime.unixTime_eq, DateTime.seconds]
    dsimp only
    omega

example : chronoRfc3339 1582979696 = .ok (some "2020-02-29T12:34:56Z") := by decide +kernel

end Dnsd.Daemon.Acme
