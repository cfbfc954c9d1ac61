import IndexMerge.Proofs.Posting.Ascending

/-!
# Postings that fit a layout

What the check of a posting accepts, as one statement for each of its rules.
-/

namespace IndexMerge

variable {layout : Layout} {p : Posting}

/-- What a posting has to be like to be stored. -/
structure Posting.Fits (layout : Layout) (p : Posting) : Prop where
  frequency_ne : p.frequency ≠ 0
  fields : p.fieldFrequencies.length = layout.fieldCount.toNat
  blocks_eq : layout.blocks = false → p.blocks = []
  ascending : isAscending p.blocks = true

theorem Posting.Fits.length_blocks_le (h : p.Fits layout) : p.blocks.length ≤ UInt32.size :=
  length_le_of_isAscending h.ascending

theorem Layout.check_eq_ok_iff : layout.check p = .ok () ↔ p.Fits layout := by
  unfold check
  by_cases zero : p.frequency = 0
  · rw [if_pos zero]
    constructor
    · intro h
      cases h
    · intro h
      exact absurd zero h.frequency_ne
  by_cases fields : p.fieldFrequencies.length = layout.fieldCount.toNat
  · rw [if_neg zero, if_neg (not_not_intro fields)]
    by_cases extra : (!layout.blocks && !p.blocks.isEmpty) = true
    · rw [if_pos extra]
      rw [Bool.and_eq_true, Bool.not_eq_true', Bool.not_eq_true'] at extra
      constructor
      · intro h
        cases h
      · intro h
        have none := h.blocks_eq extra.1
        simp [none] at extra
    · rw [if_neg extra]
      have none : layout.blocks = false → p.blocks = [] := by
        intro without
        simpa [without] using extra
      cases ascending : isAscending p.blocks with
      | true => exact ⟨fun _ => ⟨zero, fields, none, ascending⟩, fun _ => rfl⟩
      | false =>
        constructor
        · intro h
          cases h
        · intro h
          rw [h.ascending] at ascending
          cases ascending
  · rw [if_neg zero, if_pos fields]
    constructor
    · intro h
      cases h
    · intro h
      exact absurd h.fields fields

end IndexMerge
