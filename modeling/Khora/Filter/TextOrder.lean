import Khora.Filter.Lance
import Khora.Filter.Model

/-!
# Stored dates as text

The SQLite store keeps a date as the ISO text of its UTC value, and a filter binds the ISO text of
its normalized operand, so that SQLite compares texts where the filter means instants.  The texts
are not of one width: the fraction is left out when it is zero.

* `dtToIso_spec` — what the store writes, and when it raises.
* `storedText_order` — the stored text against the bound one: the order of the instants.
-/

namespace Khora

open Calendar (DateTime)

/-! ## What the store writes -/

/-- `dt.replace(tzinfo=UTC)` -/
def replaceUtc (d : DateTime) : DateTime :=
  { d with offset := some 0, offset_valid := Calendar.utc_valid }

/-- `_dt_to_iso` -/
def dtToIso : Option DateTime → Except PyErr (Option String)
  | none => .ok none
  | some d =>
      match (if d.aware then d else replaceUtc d).toUtc with
      | some u => .ok (some u.isoformat)
      | none => .error .overflowError

@[simp] theorem instant_replaceUtc {d : DateTime} (h : d.aware = false) : (replaceUtc d).instant = d.instant := by
  have hnone : d.offset = none := by simpa [DateTime.aware] using h
  simp [replaceUtc, DateTime.instant, DateTime.wall, DateTime.timeOfDay, hnone]

theorem instant_tagged (d : DateTime) :
    (if d.aware then d else replaceUtc d).instant = d.instant := by
  cases h : d.aware with
  | true => rfl
  | false => exact instant_replaceUtc h

/-- **The store writes the UTC value of the same instant**, and raises exactly when there is none. -/
theorem dtToIso_spec (d : DateTime) :
    (d.Convertible → ∃ u : DateTime, dtToIso (some d) = .ok (some u.isoformat) ∧ u.offset = some 0 ∧
      u.instant = d.instant) ∧
      (¬ d.Convertible → dtToIso (some d) = .error .overflowError) := by
  obtain ⟨hok, hno⟩ := (if d.aware then d else replaceUtc d).toUtc_spec
  have hconv : (if d.aware then d else replaceUtc d).Convertible ↔ d.Convertible := by
    rw [DateTime.Convertible, DateTime.Convertible, instant_tagged]
  constructor
  · intro h
    obtain ⟨u, hu, hi, hz⟩ := hok (hconv.mpr h)
    refine ⟨u, ?_, hz, hi.trans (instant_tagged d)⟩
    rw [dtToIso, hu]
  · intro h
    rw [dtToIso, hno (mt hconv.mp h)]

/-! ## What the filter binds -/

theorem normalizeUtc_spec {d : DateTime} (h : d.Convertible) :
    ∃ u, normalizeUtc d = .ok u ∧ u.offset = some 0 ∧ u.instant = d.instant := by
  obtain ⟨u, hu, hi, hz⟩ := d.toUtc_spec.1 h
  refine ⟨u, ?_, hz, hi⟩
  rw [normalizeUtc, hu]

/-- **Texts of UTC values compare as the instants do.** -/
theorem isoformat_compare {a b : DateTime} (ha : a.offset = some 0) (hb : b.offset = some 0) :
    (a.isoformat < b.isoformat ↔ a.instant < b.instant) ∧
      (a.isoformat = b.isoformat ↔ a.instant = b.instant) ∧
      (b.isoformat < a.isoformat ↔ b.instant < a.instant) := by
  have hlt := DateTime.isoformat_lt_iff ha hb
  have hgt := DateTime.isoformat_lt_iff hb ha
  refine ⟨hlt, ⟨fun h => ?_, fun h => ?_⟩, hgt⟩
  · rw [DateTime.isoformat_injective h]
  · -- neither text is less than the other
    have hle : a.isoformat ≤ b.isoformat := by
      refine not_lt.mp fun hba => ?_
      have := hgt.mp hba
      omega
    have hge : b.isoformat ≤ a.isoformat := by
      refine not_lt.mp fun hab => ?_
      have := hlt.mp hab
      omega
    exact le_antisymm hle hge

/-- **The stored text and the bound text compare as the two instants**, whatever the fractions and
the offsets, and whether the operand is a date or a date literal. -/
theorem storedText_order {a b : DateTime} (ha : a.Convertible) (hb : b.Convertible) :
    ∃ s u, dtToIso (some a) = .ok (some s) ∧ normalizeUtc b = .ok u ∧
      ∀ operand, operand = Value.datetime u ∨ operand = Value.dateLiteral u →
        ∃ o, lanceScalar operand = .str o ∧
          (s < o ↔ a.instant < b.instant) ∧ (s = o ↔ a.instant = b.instant) ∧
          (o < s ↔ b.instant < a.instant) := by
  obtain ⟨w, hw, hwz, hwi⟩ := (dtToIso_spec a).1 ha
  obtain ⟨u, hu, huz, hui⟩ := normalizeUtc_spec hb
  refine ⟨w.isoformat, u, hw, hu, fun operand ho => ⟨u.isoformat, ?_, ?_⟩⟩
  · rcases ho with rfl | rfl
    · rfl
    · rfl
  · rw [← hwi, ← hui]
    exact isoformat_compare hwz huz

/-- One second past the last day of 2024, two hours east, and half a second before it, naive. -/
theorem storedText_order_at_zero_fraction : ∃ a b : DateTime,
    DateTime.mk? 2025 1 1 1 0 1 0 (some 7200000000) = some a ∧
    DateTime.mk? 2024 12 31 23 0 0 500000 none = some b ∧
    ∃ s u, dtToIso (some a) = .ok (some s) ∧ normalizeUtc b = .ok u ∧
      ∀ operand, operand = Value.datetime u ∨ operand = Value.dateLiteral u →
        ∃ o, lanceScalar operand = .str o ∧
          (s < o ↔ a.instant < b.instant) ∧ (s = o ↔ a.instant = b.instant) ∧
          (o < s ↔ b.instant < a.instant) :=
  ⟨_, _, rfl, rfl, storedText_order (by decide +kernel) (by decide +kernel)⟩

end Khora
