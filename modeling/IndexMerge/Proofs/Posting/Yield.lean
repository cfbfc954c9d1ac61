import IndexMerge.Posting.Counted
import IndexMerge.Posting.Sequence

/-!
# What sources yield

A source yields a list if asking it again and again gives the members of the list in order and
then the end, without a failure. Several sources read as one yield what they yield one after
another (`yields_ofList`), and counting changes nothing of it (`Yields.counted`).
-/

namespace IndexMerge

namespace PostingSource

variable {σ : Type} [PostingSource σ]

/-- Asking a source gives these postings and then the end, and leaves the other source. -/
def Yields : σ → List Posting → σ → Prop
  | s, [], s' => next s = (.ok none, s')
  | s, p :: postings, s' => ∃ t, next s = (.ok (some p), t) ∧ Yields t postings s'

/-- Each of several sources yields the list at its place. -/
def YieldsEach : List σ → List (List Posting) → List σ → Prop
  | [], [], [] => True
  | s :: sources, postings :: lists, s' :: after => Yields s postings s' ∧
      YieldsEach sources lists after
  | _, _, _ => False

/-- A source yields one list only. -/
theorem Yields.unique {s s' t' : σ} {postings others : List Posting} (h : Yields s postings s')
    (h' : Yields s others t') : postings = others ∧ s' = t' := by
  induction postings generalizing s others with
  | nil =>
    have ended : next s = (.ok none, s') := h
    cases others with
    | nil =>
      have ended' : next s = (.ok none, t') := h'
      rw [ended] at ended'
      cases ended'
      exact ⟨rfl, rfl⟩
    | cons q others =>
      obtain ⟨_, given, _⟩ := h'
      rw [ended] at given
      cases given
  | cons p postings ih =>
    obtain ⟨u, given, h⟩ := h
    cases others with
    | nil =>
      rw [show next s = _ from h'] at given
      cases given
    | cons q others =>
      obtain ⟨_, given', h'⟩ := h'
      rw [given] at given'
      cases given'
      obtain ⟨rfl, rfl⟩ := ih h h'
      exact ⟨rfl, rfl⟩

/-- Two sources that answer the next question alike yield alike. -/
theorem Yields.of_next_eq {s t s' : σ} {postings : List Posting} (same : next s = next t)
    (h : Yields t postings s') : Yields s postings s' := by
  cases postings with
  | nil => exact same.trans h
  | cons p postings =>
    obtain ⟨u, given, h⟩ := h
    exact ⟨u, same.trans given, h⟩

/-- Of several sources that yield, each yields. -/
theorem YieldsEach.exists_of_mem {s : σ} {sources after : List σ} {lists : List (List Posting)}
    (h : YieldsEach sources lists after) (member : s ∈ sources) :
    ∃ postings, ∃ s' ∈ after, Yields s postings s' := by
  induction sources generalizing lists after with
  | nil => cases member
  | cons first sources ih =>
    rcases lists with _ | ⟨postings, lists⟩ <;> rcases after with _ | ⟨s', after⟩ <;>
      simp only [YieldsEach] at h
    rcases List.mem_cons.mp member with rfl | member
    · exact ⟨postings, s', List.mem_cons_self .., h.1⟩
    · obtain ⟨others, later, found, yields⟩ := ih h.2 member
      exact ⟨others, later, List.mem_cons_of_mem s' found, yields⟩

/-- A list yields its members. -/
theorem yields_self (postings : List Posting) : Yields postings postings [] := by
  induction postings with
  | nil => rfl
  | cons p postings ih => exact ⟨postings, rfl, ih⟩

end PostingSource

open PostingSource

variable {σ : Type} [PostingSource σ]

namespace PostingSequence

/-- A source in a row is asked until it ends, and then the row behind it goes on. -/
theorem yields_cons {ended rest : List σ} {s s' : σ} {postings more : List Posting}
    {t : PostingSequence σ} (first : Yields s postings s')
    (behind : Yields (concatenated (s' :: ended) rest) more t) :
    Yields (concatenated ended (s :: rest)) (postings ++ more) t := by
  induction postings generalizing s with
  | nil =>
    refine behind.of_next_eq ?_
    show nextOf ended (s :: rest) = nextOf (s' :: ended) rest
    rw [nextOf, show PostingSource.next s = _ from first]
  | cons p postings ih =>
    obtain ⟨u, given, first⟩ := first
    refine ⟨concatenated ended (u :: rest), ?_, ih first⟩
    show nextOf ended (s :: rest) = _
    rw [nextOf, given]

theorem yields_concatenated {sources after : List σ} {lists : List (List Posting)}
    (h : YieldsEach sources lists after) (ended : List σ) :
    Yields (concatenated ended sources) lists.flatten
      (concatenated (after.reverse ++ ended) []) := by
  induction sources generalizing lists after ended with
  | nil =>
    cases lists <;> cases after <;> simp only [YieldsEach] at h
    exact rfl
  | cons s sources ih =>
    cases lists with
    | nil => simp only [YieldsEach] at h
    | cons postings lists =>
      cases after with
      | nil => simp only [YieldsEach] at h
      | cons s' after =>
        have behind := ih h.2 (s' :: ended)
        rw [List.flatten_cons, List.reverse_cons, List.append_assoc]
        exact yields_cons h.1 behind

theorem yields_direct {s s' : σ} {postings : List Posting} (h : Yields s postings s') :
    Yields (direct s) postings (direct s') := by
  induction postings generalizing s with
  | nil =>
    show PostingSequence.next (direct s) = _
    simp only [PostingSequence.next, show PostingSource.next s = _ from h]
  | cons p postings ih =>
    obtain ⟨u, given, h⟩ := h
    refine ⟨direct u, ?_, ih h⟩
    show PostingSequence.next (direct s) = _
    simp only [PostingSequence.next, given]

/-- What a row yields before the end of its first source, this source yields. -/
theorem exists_of_yields_cons {ended rest : List σ} {s : σ} {postings : List Posting}
    {t : PostingSequence σ} (h : Yields (concatenated ended (s :: rest)) postings t) :
    ∃ own more s', postings = own ++ more ∧ Yields s own s' ∧
      Yields (concatenated (s' :: ended) rest) more t := by
  have asked : PostingSource.next (concatenated ended (s :: rest)) = nextOf ended (s :: rest) := rfl
  rw [nextOf] at asked
  induction postings generalizing s with
  | nil =>
    rcases given : PostingSource.next s with ⟨e | _ | p, s'⟩ <;> rw [given] at asked
    · cases asked.symm.trans h
    · exact ⟨[], [], s', rfl, given, Yields.of_next_eq asked.symm h⟩
    · cases asked.symm.trans h
  | cons p postings ih =>
    rcases given : PostingSource.next s with ⟨e | _ | q, s'⟩ <;> rw [given] at asked
    · obtain ⟨u, first, -⟩ := h
      cases asked.symm.trans first
    · exact ⟨[], p :: postings, s', rfl, given, Yields.of_next_eq asked.symm h⟩
    · obtain ⟨u, first, h⟩ := h
      cases asked.symm.trans first
      obtain ⟨own, more, s'', rfl, yields, behind⟩ := ih h rfl
      exact ⟨p :: own, more, s'', rfl, ⟨s', given, yields⟩, behind⟩

theorem yieldsEach_of_concatenated {ended sources : List σ} {postings : List Posting}
    {t : PostingSequence σ} (h : Yields (concatenated ended sources) postings t) :
    ∃ lists after, YieldsEach sources lists after ∧ t.sources = ended.reverse ++ after := by
  induction sources generalizing ended postings with
  | nil =>
    cases postings with
    | nil =>
      obtain ⟨-, rfl⟩ := Prod.mk.inj h
      exact ⟨[], [], trivial, rfl⟩
    | cons p postings =>
      obtain ⟨_, given, -⟩ := h
      cases given
  | cons s sources ih =>
    obtain ⟨own, more, s', rfl, yields, behind⟩ := exists_of_yields_cons h
    obtain ⟨lists, after, each, same⟩ := ih behind
    refine ⟨own :: lists, s' :: after, ⟨yields, each⟩, ?_⟩
    rw [same, List.reverse_cons, List.append_assoc]
    rfl

theorem yields_of_direct {s : σ} {postings : List Posting} {t : PostingSequence σ}
    (h : Yields (direct s) postings t) : ∃ s', Yields s postings s' ∧ t = direct s' := by
  induction postings generalizing s with
  | nil =>
    obtain ⟨given, rfl⟩ := Prod.mk.inj h
    exact ⟨_, Prod.ext given rfl, rfl⟩
  | cons p postings ih =>
    obtain ⟨u, first, h⟩ := h
    obtain ⟨given, rfl⟩ := Prod.mk.inj first
    obtain ⟨s', yields, rfl⟩ := ih h
    exact ⟨s', ⟨_, Prod.ext given rfl, yields⟩, rfl⟩

/-- If sources read as one come to their end, each has come to its end. -/
theorem yieldsEach_of_ofList {sources : List σ} {postings : List Posting} {t : PostingSequence σ}
    (h : Yields (ofList sources) postings t) : ∃ lists, YieldsEach sources lists t.sources := by
  unfold ofList at h
  split at h
  · obtain ⟨s', yields, rfl⟩ := yields_of_direct h
    exact ⟨[postings], yields, trivial⟩
  · obtain ⟨lists, after, each, same⟩ := yieldsEach_of_concatenated h
    rw [List.reverse_nil, List.nil_append] at same
    exact ⟨lists, same ▸ each⟩

/-- Sources read as one yield what they yield one after another, and each is as it would be on
its own. -/
theorem yields_ofList {sources after : List σ} {lists : List (List Posting)}
    (h : YieldsEach sources lists after) :
    ∃ t, Yields (ofList sources) lists.flatten t ∧ t.sources = after := by
  unfold ofList
  split
  · rcases lists with _ | ⟨postings, _ | ⟨_, _⟩⟩ <;> rcases after with _ | ⟨s', _ | ⟨_, _⟩⟩ <;>
      simp only [YieldsEach, and_false] at h
    refine ⟨direct s', ?_, rfl⟩
    simpa using yields_direct h.1
  · exact ⟨_, yields_concatenated h [], by simp [PostingSequence.sources]⟩

end PostingSequence

theorem PostingSource.Yields.counted {s s' : σ} {postings : List Posting} (h : Yields s postings s')
    (count : Nat) : Yields (⟨s, count⟩ : CountedPostings σ) postings
      ⟨s', count + postings.length⟩ := by
  induction postings generalizing s count with
  | nil =>
    show CountedPostings.next _ = _
    simp only [CountedPostings.next, show PostingSource.next s = _ from h]
    rfl
  | cons p postings ih =>
    obtain ⟨u, given, h⟩ := h
    refine ⟨⟨u, count + 1⟩, ?_, ?_⟩
    · show CountedPostings.next _ = _
      simp only [CountedPostings.next, given]
    · have more := ih h (count + 1)
      rwa [Nat.add_assoc, Nat.add_comm 1] at more

theorem PostingSource.Yields.of_counted {t t' : CountedPostings σ} {postings : List Posting}
    (h : Yields t postings t') : Yields t.inner postings t'.inner := by
  induction postings generalizing t with
  | nil =>
    have asked : CountedPostings.next t = _ := h
    unfold CountedPostings.next at asked
    split at asked <;> cases asked
    assumption
  | cons p postings ih =>
    obtain ⟨u, asked, h⟩ := h
    have asked : CountedPostings.next t = _ := asked
    unfold CountedPostings.next at asked
    split at asked <;> cases asked
    exact ⟨_, ‹_›, ih h⟩

end IndexMerge
