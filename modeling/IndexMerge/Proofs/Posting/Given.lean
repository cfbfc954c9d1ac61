import IndexMerge.Proofs.Posting.Yield

/-!
# What sources may give

A relation bounds what sources give if it holds whenever a source gives a posting and is never
made wider by asking (`MayGive`). What bounds several sources each for itself bounds what they give
as one (`PostingSequence.mayGive`).
-/

namespace IndexMerge

namespace PostingSource

variable {σ : Type} [PostingSource σ] {may : σ → Posting → Prop}

/-- The relation holds of a source and each posting that the source gives now or later. -/
structure MayGive (may : σ → Posting → Prop) : Prop where
  given : ∀ {s s' : σ} {p : Posting}, next s = (.ok (some p), s') → may s p
  later : ∀ {s : σ} {p : Posting}, may (next s).2 p → may s p

theorem MayGive.of_yields (h : MayGive may) {s s' : σ} {postings : List Posting}
    (yields : Yields s postings s') : ∀ p ∈ postings, may s p := by
  induction postings generalizing s with
  | nil => simp
  | cons q postings ih =>
    obtain ⟨t, given, yields⟩ := yields
    intro p member
    rcases List.mem_cons.mp member with rfl | member
    · exact h.given given
    · apply h.later
      rw [given]
      exact ih yields p member

end PostingSource

open PostingSource

variable {σ : Type} [PostingSource σ] {may : σ → Posting → Prop}

namespace PostingSequence

theorem forall_sources_nextOf {P : σ → Prop} (asked : ∀ s, P s → P (PostingSource.next s).2)
    (ended rest : List σ) (h : ∀ s ∈ ended.reverse ++ rest, P s) :
    ∀ s ∈ (nextOf ended rest).2.sources, P s := by
  induction rest generalizing ended with
  | nil => exact h
  | cons source rest ih =>
    have next := asked source (h source (by simp))
    have replaced : ∀ s ∈ ended.reverse ++ (PostingSource.next source).2 :: rest, P s := by
      intro s member
      rcases List.mem_append.mp member with member | member
      · exact h s (List.mem_append_left _ member)
      · rcases List.mem_cons.mp member with rfl | member
        · exact next
        · exact h s (by simp [member])
    unfold nextOf
    split <;> rename_i given <;> rw [given] at replaced
    · exact replaced
    · refine ih _ ?_
      rwa [List.reverse_cons, List.append_assoc]
    · exact replaced

/-- What asking a source keeps, asking a sequence keeps of all its sources. -/
theorem forall_sources_next {P : σ → Prop} (asked : ∀ s, P s → P (PostingSource.next s).2)
    (t : PostingSequence σ) (h : ∀ s ∈ t.sources, P s) : ∀ s ∈ (next t).2.sources, P s := by
  cases t with
  | direct source =>
    intro s member
    obtain rfl := List.mem_singleton.mp member
    exact asked source (h source (List.mem_singleton_self _))
  | concatenated ended rest => exact forall_sources_nextOf asked ended rest h

theorem mayGive_nextOf (h : MayGive may) {ended rest : List σ} {p : Posting}
    {t : PostingSequence σ} (given : nextOf ended rest = (.ok (some p), t)) :
    ∃ s ∈ ended.reverse ++ rest, may s p := by
  induction rest generalizing ended with
  | nil => cases given
  | cons source rest ih =>
    unfold nextOf at given
    split at given <;> rename_i asked
    · cases given
      exact ⟨source, by simp, h.given asked⟩
    · obtain ⟨s, member, found⟩ := ih given
      rw [List.reverse_cons, List.append_assoc, List.singleton_append] at member
      rcases List.mem_append.mp member with member | member
      · exact ⟨s, List.mem_append_left _ member, found⟩
      · rcases List.mem_cons.mp member with rfl | member
        · refine ⟨source, by simp, h.later ?_⟩
          rwa [asked]
        · exact ⟨s, by simp [member], found⟩
    · cases given

/-- What sources give as one, one of them may give. -/
theorem mayGive (h : MayGive may) :
    MayGive fun (t : PostingSequence σ) p => ∃ s ∈ t.sources, may s p where
  given := by
    intro t t' p given
    cases t with
    | direct source =>
      have given : ((PostingSource.next source).1, direct (PostingSource.next source).2) =
          (.ok (some p), t') := given
      obtain ⟨given, -⟩ := Prod.mk.inj given
      exact ⟨source, by simp [sources], h.given (Prod.ext given rfl)⟩
    | concatenated ended rest => exact mayGive_nextOf h given
  later := by
    rintro t p ⟨s, member, found⟩
    apply Classical.byContradiction
    intro never
    -- asking makes nothing wider, so what no source may give no source may give later
    have still := forall_sources_next (P := fun s => ¬may s p)
      (fun s no found => no (h.later found)) t fun s member found => never ⟨s, member, found⟩
    exact still s member found

end PostingSequence

namespace CountedPostings

/-- Counting changes nothing of what may be given. -/
theorem mayGive (h : MayGive may) : MayGive fun (t : CountedPostings σ) p => may t.inner p where
  given := by
    intro t t' p given
    have given : next t = (.ok (some p), t') := given
    unfold next at given
    split at given
    · rename_i asked
      cases given
      exact h.given asked
    · cases given
    · cases given
  later := by
    intro t p found
    have found : may (next t).2.inner p := found
    rw [inner_next] at found
    exact h.later found

/-- A source that has yielded was counted. -/
theorem count_of_yields {t t' : CountedPostings σ} {postings : List Posting}
    (yields : Yields t postings t') : t'.count = t.count + postings.length := by
  induction postings generalizing t with
  | nil =>
    have asked : next t = (.ok none, t') := yields
    unfold next at asked
    split at asked <;> cases asked
    rfl
  | cons p postings ih =>
    obtain ⟨u, given, yields⟩ := yields
    have given : next t = (.ok (some p), u) := given
    unfold next at given
    split at given <;> cases given
    rw [ih yields, List.length_cons, Nat.add_right_comm]
    rfl

end CountedPostings

end IndexMerge
