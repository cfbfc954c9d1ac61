import IndexMerge.Posting.Source
import IndexMerge.Total

/-!
# Sources one after another

Several sources read as one. A source that has ended is set aside, so that its state can be taken
back when the whole is done; a single source is passed through and never set aside.
-/

namespace IndexMerge

/-- One source, or a row of sources of which some have ended, the last one of these first. -/
inductive PostingSequence (σ : Type) where
  | direct (source : σ)
  | concatenated (ended : List σ) (rest : List σ)

namespace PostingSequence

variable {σ : Type}

/-- The sources as one. -/
def ofList : List σ → PostingSequence σ
  | [source] => direct source
  | sources => concatenated [] sources

/-- The number of sources that have not ended. -/
def sourceCount : PostingSequence σ → Nat
  | direct _ => 1
  | concatenated _ rest => rest.length

/-- Whether there is a single source, passed through. -/
def isDirect : PostingSequence σ → Bool
  | direct _ => true
  | concatenated .. => false

/-- All sources in their order. -/
def sources : PostingSequence σ → List σ
  | direct source => [source]
  | concatenated ended rest => ended.reverse ++ rest

theorem sources_ofList (sources : List σ) : (ofList sources).sources = sources := by
  unfold ofList
  split <;> rfl

variable [PostingSource σ]

/-- Asks the sources in turn for a posting. Those that have ended are added to `ended`. -/
def nextOf (ended : List σ) : List σ → Except Error (Option Posting) × PostingSequence σ
  | [] => (.ok none, concatenated ended [])
  | source :: rest =>
    match PostingSource.next source with
    | (.ok (some p), source) => (.ok (some p), concatenated ended (source :: rest))
    | (.ok none, source) => nextOf (source :: ended) rest
    | (.error e, source) => (.error e, concatenated ended (source :: rest))

/-- The next posting of the first source that has one. -/
def next : Attempt Error (PostingSequence σ) (Option Posting)
  | direct source =>
    let (result, source) := PostingSource.next source
    (result, direct source)
  | concatenated ended rest => nextOf ended rest

/-- A bound on the number of postings left. -/
def left : PostingSequence σ → Nat
  | direct source => PostingSource.left source
  | concatenated _ rest => total (rest.map PostingSource.left)

theorem left_nextOf {ended rest : List σ} {p : Posting} {s : PostingSequence σ}
    (h : nextOf ended rest = (.ok (some p), s)) : s.left < total (rest.map PostingSource.left) := by
  induction rest generalizing ended with
  | nil => cases h
  | cons source rest ih =>
    unfold nextOf at h
    split at h
    · rename_i h'
      cases h
      have := PostingSource.left_next h'
      simp only [left, List.map_cons, total_cons]
      omega
    · have := ih h
      simp only [List.map_cons, total_cons]
      omega
    · cases h

theorem left_next {s s' : PostingSequence σ} {p : Posting} (h : next s = (.ok (some p), s')) :
    s'.left < s.left := by
  cases s with
  | direct source =>
    have h : ((PostingSource.next source).1, direct (PostingSource.next source).2) =
        (.ok (some p), s') := h
    obtain ⟨given, rfl⟩ := Prod.mk.inj h
    exact PostingSource.left_next (Prod.ext given rfl)
  | concatenated ended rest => exact left_nextOf h

instance : PostingSource (PostingSequence σ) := ⟨next, left, left_next⟩

theorem map_sources_nextOf {β : Type} {f : σ → β}
    (h : ∀ s, f (PostingSource.next s).2 = f s) (ended rest : List σ) :
    (nextOf ended rest).2.sources.map f = (ended.reverse ++ rest).map f := by
  induction rest generalizing ended with
  | nil => rfl
  | cons source rest ih =>
    have asked := h source
    unfold nextOf
    split <;> rename_i given <;> rw [given] at asked <;> simp_all [sources]

/-- Asking a sequence changes nothing of its sources that asking them does not change. -/
theorem map_sources_next {β : Type} {f : σ → β} (h : ∀ s, f (PostingSource.next s).2 = f s)
    (s : PostingSequence σ) : (next s).2.sources.map f = s.sources.map f := by
  cases s with
  | direct source => exact congrArg (fun value => [value]) (h source)
  | concatenated ended rest => exact map_sources_nextOf h ended rest

end PostingSequence

end IndexMerge
