import Clink.Ports.WindowTrigger

/-!
# Window arithmetic

The rest of `include/clink/time/window_arithmetic.hpp`: window ends, the starts
of a hopping window's panes and the saturating sums, all computed wide and
clamped to int64 once.
-/

namespace Clink.Ports.WindowArithmetic

open Clink.Ports.WindowTrigger

def int64Max : Int := 2 ^ 63 - 1

def int64Min : Int := -2 ^ 63

/-- The exclusive end of a window. -/
def windowEndFor (start size : Int) : Int := clampToInt64 (start + size)

def satAdd (a b : Int) : Int := clampToInt64 (a + b)

def satSub (a b : Int) : Int := clampToInt64 (a - b)

/-- Every start of a pane that contains `ts`; the loop runs from the first
candidate to the last in steps of `slide`. -/
def hopWindowStartsFor (ts size slide : Int) : List Int :=
  let last := floorDivWide ts slide * slide
  let first := floorDivWide (ts - size + slide) slide * slide
  (List.range ((last - first + slide) / slide).toNat).filterMap fun (i : Nat) =>
    let s := first + slide * i
    if s ≤ ts ∧ ts < s + size then some (clampToInt64 s) else none

/-! ## What the clamped operations are -/

variable {v : Int}

theorem clampToInt64_eq_self (hlower : int64Min ≤ v) (hupper : v ≤ int64Max) :
    clampToInt64 v = v := by
  unfold int64Min at hlower
  unfold int64Max at hupper
  unfold clampToInt64
  rw [if_neg (by omega), if_neg (by omega)]

theorem clampToInt64_le_iff {t : Int} (ht : int64Min ≤ t) :
    clampToInt64 v ≤ t ↔ v ≤ t ∨ t = int64Max ∨ int64Max < t := by
  unfold int64Min at ht
  unfold clampToInt64 int64Max
  split_ifs <;> omega

theorem clampToInt64_mono {v' : Int} (h : v ≤ v') : clampToInt64 v ≤ clampToInt64 v' := by
  unfold clampToInt64
  split_ifs <;> omega

variable {a b : Int}

theorem floorDivWide_eq (hb : 0 < b) : floorDivWide a b = a / b := by
  have hdiv : b * a.tdiv b + a.tmod b = a := Int.mul_tdiv_add_tmod a b
  have hlt : a.tmod b < b := Int.tmod_lt_of_pos a hb
  have hgt : -b < a.tmod b := Int.lt_tmod_of_pos a hb
  have hnot : ¬b < 0 := not_lt.mpr hb.le
  unfold floorDivWide
  simp only [hnot, decide_false, ne_eq, decide_eq_false_iff_not, not_not]
  symm
  -- The remainder of the truncating division is moved into `[0, b)`.
  by_cases hneg : a.tmod b < 0
  · rw [if_pos ⟨hneg.ne, hneg⟩]
    have hsum : (a.tmod b + b) + b * (a.tdiv b - 1) = a := by
      rw [Int.mul_sub]
      omega
    exact ((Int.ediv_emod_unique hb).mpr ⟨hsum, by omega, by omega⟩).1
  · have hcond : ¬(a.tmod b ≠ 0 ∧ a.tmod b < 0) := fun h => hneg h.2
    rw [if_neg hcond]
    exact ((Int.ediv_emod_unique hb).mpr ⟨by omega, by omega, hlt⟩).1

theorem floorDivWide_mul_le (hb : 0 < b) : floorDivWide a b * b ≤ a := by
  rw [floorDivWide_eq hb]
  exact Int.ediv_mul_le a hb.ne'

theorem lt_floorDivWide_mul_add (hb : 0 < b) : a < floorDivWide a b * b + b := by
  rw [floorDivWide_eq hb]
  have := Int.lt_ediv_add_one_mul_self a hb
  rw [Int.add_mul] at this
  omega

variable {size s : Int}

/-- The start of the window is the one multiple of its size within it. -/
theorem eq_floorDivWide_mul (ts : Int) (hsize : 0 < size) (hdvd : size ∣ s) (hle : s ≤ ts)
    (hlt : ts < s + size) : s = floorDivWide ts size * size := by
  obtain ⟨q, rfl⟩ := hdvd
  have hq : ts / size = q :=
    ((Int.ediv_emod_unique hsize).mpr
      (⟨by omega, by omega, by omega⟩ : (ts - size * q) + size * q = ts ∧ _)).1
  rw [floorDivWide_eq hsize, hq, Int.mul_comm]

/-- The starts of the panes with `ts` in them, before they are clamped. -/
def PaneStart (ts size slide s : Int) : Prop := slide ∣ s ∧ s ≤ ts ∧ ts < s + size

variable {ts slide : Int}

theorem exists_index (hslide : 0 < slide) (h : PaneStart ts size slide s) :
    ∃ i : Nat,
      i < ((floorDivWide ts slide * slide - floorDivWide (ts - size + slide) slide * slide +
        slide) / slide).toNat ∧
      s = floorDivWide (ts - size + slide) slide * slide + slide * (i : Int) := by
  obtain ⟨⟨q, rfl⟩, hle, hlt⟩ := h
  rw [floorDivWide_eq hslide, floorDivWide_eq hslide]
  generalize hfirst : (ts - size + slide) / slide = first
  generalize hlast : ts / slide = last
  have hcount : (last * slide - first * slide + slide) / slide = last - first + 1 := by
    have hfactor : last * slide - first * slide + slide = (last - first + 1) * slide := by ring
    rw [hfactor, Int.mul_ediv_cancel _ hslide.ne']
  have hupper : q ≤ last := by
    rw [← hlast]
    exact (Int.le_ediv_iff_mul_le hslide).mpr (by rw [Int.mul_comm]; exact hle)
  have hlower : first < q + 1 := by
    rw [← hfirst]
    refine Int.ediv_lt_of_lt_mul hslide ?_
    rw [Int.add_mul, Int.mul_comm q slide]
    omega
  refine ⟨(q - first).toNat, by omega, ?_⟩
  rw [Int.toNat_of_nonneg (by omega)]
  ring

theorem slide_dvd_pane (ts size slide : Int) (i : Nat) :
    slide ∣ floorDivWide (ts - size + slide) slide * slide + slide * (i : Int) :=
  Int.dvd_add (Int.dvd_mul_left _ _) (Int.dvd_mul_right _ _)

/-- The loop over the panes visits every multiple of the slide that can be the
start of a pane with `ts` in it. -/
theorem mem_hopWindowStartsFor (hslide : 0 < slide) :
    s ∈ hopWindowStartsFor ts size slide ↔
      ∃ s', clampToInt64 s' = s ∧ slide ∣ s' ∧ s' ≤ ts ∧ ts < s' + size := by
  unfold hopWindowStartsFor
  simp only [List.mem_filterMap, List.mem_range, Option.ite_none_right_eq_some, Option.some.injEq]
  constructor
  · rintro ⟨i, -, ⟨hle, hlt⟩, rfl⟩
    exact ⟨_, rfl, slide_dvd_pane ts size slide i, hle, hlt⟩
  · rintro ⟨s', rfl, hpane⟩
    obtain ⟨i, hi, rfl⟩ := exists_index hslide hpane
    exact ⟨i, hi, hpane.2, rfl⟩

/-- The panes come in ascending order, so no start comes twice. -/
theorem nodup_hopWindowStartsFor (hslide : 0 < slide)
    (hbound : ∀ s, slide ∣ s → s ≤ ts → ts < s + size → clampToInt64 s = s) :
    (hopWindowStartsFor ts size slide).Nodup := by
  unfold hopWindowStartsFor
  refine List.Nodup.filterMap ?_ List.nodup_range
  intro i j s hi hj
  simp only [Option.mem_def, Option.ite_none_right_eq_some, Option.some.injEq] at hi hj
  obtain ⟨⟨hile, hilt⟩, hi⟩ := hi
  obtain ⟨⟨hjle, hjlt⟩, hj⟩ := hj
  rw [hbound _ (slide_dvd_pane ts size slide i) hile hilt] at hi
  rw [hbound _ (slide_dvd_pane ts size slide j) hjle hjlt] at hj
  have heq : slide * (i : Int) = slide * (j : Int) := by omega
  exact_mod_cast Int.eq_of_mul_eq_mul_left hslide.ne' heq

/-! ## Exact pane assignment -/

/-- The list ascends where clamping keeps the panes' starts apart. -/
theorem pairwise_hopWindowStartsFor (hslide : 0 < slide) :
    (hopWindowStartsFor ts size slide).Pairwise (· < ·) ↔
      ∀ s s', PaneStart ts size slide s → PaneStart ts size slide s' → s < s' →
        clampToInt64 s < clampToInt64 s' := by
  unfold hopWindowStartsFor
  dsimp only
  rw [List.pairwise_filterMap, List.pairwise_iff_getElem]
  simp only [List.length_range, List.getElem_range, Option.ite_none_right_eq_some,
    Option.some.injEq]
  constructor
  · intro h s s' hs hs' hlt
    obtain ⟨i, hi, rfl⟩ := exists_index hslide hs
    obtain ⟨j, hj, rfl⟩ := exists_index hslide hs'
    have hij : i < j := by
      have hmul : slide * (i : Int) < slide * (j : Int) := by omega
      exact_mod_cast Int.lt_of_mul_lt_mul_left hmul hslide.le
    exact h i j hi hj hij _ ⟨hs.2, rfl⟩ _ ⟨hs'.2, rfl⟩
  · rintro h i j - - hij _ ⟨hi, rfl⟩ _ ⟨hj, rfl⟩
    refine h _ _ ⟨slide_dvd_pane ts size slide i, hi⟩ ⟨slide_dvd_pane ts size slide j, hj⟩ ?_
    have hlt : slide * (i : Int) < slide * (j : Int) :=
      Int.mul_lt_mul_of_pos_left (by exact_mod_cast hij) hslide
    omega

def InInt64 (v : Int) : Prop := int64Min ≤ v ∧ v ≤ int64Max

/-- The starts are those of the panes with `ts` in them, each once, ascending. -/
def HopStartsExact (ts size slide : Int) : Prop :=
  (hopWindowStartsFor ts size slide).Pairwise (· < ·) ∧
    ∀ s, s ∈ hopWindowStartsFor ts size slide ↔ InInt64 s ∧ slide ∣ s ∧ s ≤ ts ∧ ts < s + size

/-- The largest multiple of `slide` below the range of int64. -/
def lastStartBelow (slide : Int) : Int := floorDivWide (int64Min - 1) slide * slide

theorem lastStartBelow_lt (hslide : 0 < slide) : lastStartBelow slide < int64Min := by
  have hle := floorDivWide_mul_le (a := int64Min - 1) hslide
  unfold lastStartBelow
  omega

theorem le_lastStartBelow (hslide : 0 < slide) (hdvd : slide ∣ s) (hs : s < int64Min) :
    s ≤ lastStartBelow slide := by
  obtain ⟨q, rfl⟩ := hdvd
  unfold lastStartBelow
  rw [floorDivWide_eq hslide, Int.mul_comm]
  refine Int.mul_le_mul_of_nonneg_right ((Int.le_ediv_iff_mul_le hslide).mpr ?_) hslide.le
  rw [Int.mul_comm]
  omega

/-- The panes of a timestamp are assigned exactly where the last pane that
starts below int64 has ended by then: a start below int64 is clamped, not
dropped. -/
theorem hop_starts_exact_iff {ts size slide : Int} (hts : InInt64 ts) (hslide : 0 < slide) :
    HopStartsExact ts size slide ↔ lastStartBelow slide + size ≤ ts := by
  have hlast : lastStartBelow slide < int64Min := lastStartBelow_lt hslide
  unfold HopStartsExact
  rw [pairwise_hopWindowStartsFor hslide]
  constructor
  · rintro ⟨hascend, hmem⟩
    by_contra hlate
    have hpane : PaneStart ts size slide (lastStartBelow slide) := by
      refine ⟨Int.dvd_mul_left _ _, ?_, by omega⟩
      have := hts.1
      omega
    have hclamp : clampToInt64 (lastStartBelow slide) = int64Min := by
      unfold clampToInt64 int64Min at *
      rw [if_pos hlast]
    -- The clamped start stands for a pane of its own, which the list has as well.
    obtain ⟨-, hdvd, hle, hlt⟩ := (hmem int64Min).mp
      ((mem_hopWindowStartsFor hslide).mpr ⟨_, hclamp, hpane⟩)
    have hself : clampToInt64 int64Min = int64Min := by decide
    have hbelow := hascend _ _ hpane ⟨hdvd, hle, hlt⟩ hlast
    rw [hclamp, hself] at hbelow
    exact lt_irrefl _ hbelow
  · intro hended
    have hself : ∀ s, PaneStart ts size slide s → InInt64 s ∧ clampToInt64 s = s := by
      rintro s ⟨hdvd, hle, hlt⟩
      have hlower : int64Min ≤ s := by
        by_contra hs
        have := le_lastStartBelow hslide hdvd (by omega)
        omega
      have hupper : s ≤ int64Max := hle.trans hts.2
      exact ⟨⟨hlower, hupper⟩, clampToInt64_eq_self hlower hupper⟩
    refine ⟨?_, ?_⟩
    · intro s s' hs hs' hlt
      rw [(hself s hs).2, (hself s' hs').2]
      exact hlt
    · intro s
      rw [mem_hopWindowStartsFor hslide]
      constructor
      · rintro ⟨s', rfl, hs'⟩
        rw [(hself s' hs').2]
        exact ⟨(hself s' hs').1, hs'⟩
      · rintro ⟨-, hs⟩
        exact ⟨s, (hself s hs).2, hs⟩

theorem hop_starts_exact_iff_pre_epoch :
    InInt64 (-15000) ∧ HopStartsExact (-15000) 10000 5000 := by
  have hts : InInt64 (-15000) := ⟨by decide, by decide⟩
  exact ⟨hts, (hop_starts_exact_iff hts (by decide)).mpr (by decide)⟩

/-- At the lower end of int64 the clamped starts come three times over. -/
theorem clamped_starts_repeat :
    ¬ ∀ ts size slide : Int, InInt64 ts → InInt64 size → InInt64 slide → 0 < size → 0 < slide →
      HopStartsExact ts size slide := by
  intro hall
  have hrange : ∀ v : Int, int64Min ≤ v → v ≤ int64Max → InInt64 v := fun v h h' => ⟨h, h'⟩
  have hexact := hall int64Min 10 3 (hrange _ (by decide) (by decide))
    (hrange _ (by decide) (by decide)) (hrange _ (by decide) (by decide)) (by decide) (by decide)
  have hstarts : hopWindowStartsFor int64Min 10 3 = [int64Min, int64Min, int64Min] := by
    decide +kernel
  have hascend := hexact.1
  rw [hstarts] at hascend
  revert hascend
  decide

end Clink.Ports.WindowArithmetic
