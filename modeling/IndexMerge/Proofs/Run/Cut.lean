import IndexMerge.Proofs.Posting.Ascending
import IndexMerge.Proofs.Run.Mergeable

/-!
# Runs cut at documents

The documents of a run fall into the intervals between some cuts, and each interval has its piece
of the run (`Run.piece`). A piece of a run that was built could have been built itself
(`Run.built_piece`), and all pieces together have the terms and the postings of the run
(`Run.vocabulary_pieces`, `Run.mergedPostings_pieces`).
-/

namespace IndexMerge

/-- Whether a document falls into the interval with a number: it comes before none of the cuts up to
the interval and before all others. -/
def inInterval (cuts : List UInt32) (i : Nat) (doc : UInt32) : Bool :=
  (cuts.take i).all (· ≤ doc) && (cuts.drop i).all (doc < ·)

/-- What an entry of a run has of the postings that are kept, if it has any. -/
def RunEntry.restrict (layout : Layout) (keep : Posting → Bool) (e : RunEntry) : Option RunEntry :=
  match e.postings.filter keep with
  | [] => none
  | p :: postings => some ⟨e.term, .ofPostings layout (p :: postings), p :: postings⟩

/-- The run with the postings whose documents fall into an interval. Terms without postings are left
out. -/
def Run.piece (run : Run) (cuts : List UInt32) (i : Nat) : Run :=
  ⟨i, run.layout,
    run.entries.filterMap (RunEntry.restrict run.layout fun p => inInterval cuts i p.docId)⟩

/-- The pieces of a run for all intervals in turn. -/
def Run.pieces (run : Run) (cuts : List UInt32) : Array Run :=
  ((List.range (cuts.length + 1)).map (run.piece cuts)).toArray

variable {layout : Layout} {cuts : List UInt32} {doc : UInt32} {i : Nat}

/-- Among ascending cuts, the number of an interval is the number of the cuts up to it. -/
theorem inInterval_iff (ascending : cuts.Pairwise (· < ·)) (le : i ≤ cuts.length) :
    inInterval cuts i doc = true ↔ cuts.countP (· ≤ doc) = i := by
  induction cuts generalizing i with
  | nil => simp [inInterval, Nat.le_zero.mp le]
  | cons c cuts ih =>
    have ⟨first, rest⟩ := List.pairwise_cons.mp ascending
    cases i with
    | zero => simp [inInterval]
    | succ i =>
      have behind := ih rest (Nat.le_of_succ_le_succ le)
      by_cases upTo : c ≤ doc
      · rw [List.countP_cons_of_pos (by simpa using upTo), Nat.add_right_cancel_iff, ← behind]
        simp [inInterval, upTo]
      · -- All further cuts come behind the document as well.
        have none : cuts.countP (· ≤ doc) = 0 := by
          refine List.countP_eq_zero.mpr fun d member => ?_
          have later := UInt32.lt_trans (UInt32.not_le.mp upTo) (first d member)
          simpa using later
        rw [List.countP_cons_of_neg (by simpa using upTo), none]
        simp [inInterval, upTo]

/-- A list that ascends by a number is made up of its parts with each number. -/
theorem flatMap_filter_eq {α : Type} {number : α → Nat} {list : List α}
    (ascending : list.Pairwise fun a b => number a ≤ number b) (n : Nat) :
    (List.range n).flatMap (fun i => list.filter fun a => number a == i) =
      list.filter fun a => decide (number a < n) := by
  induction n with
  | zero => simp
  | succ n ih =>
    rw [List.range_succ, List.flatMap_append, ih, List.flatMap_singleton]
    clear ih
    induction list with
    | nil => rfl
    | cons a list ih =>
      have ⟨first, rest⟩ := List.pairwise_cons.mp ascending
      have behind := ih rest
      rcases Nat.lt_trichotomy (number a) n with less | same | more
      · rw [List.filter_cons_of_pos (by simpa using less),
          List.filter_cons_of_neg (by simpa using Nat.ne_of_lt less),
          List.filter_cons_of_pos (by simpa using Nat.lt_succ_of_lt less), List.cons_append, behind]
      · -- Nothing behind has a smaller number.
        have none : list.filter (fun b => decide (number b < n)) = [] := by
          refine List.filter_eq_nil_iff.mpr fun b member => ?_
          have := first b member
          simp only [decide_eq_true_eq]
          omega
        rw [none, List.nil_append] at behind
        rw [List.filter_cons_of_neg (by simp [same]), List.filter_cons_of_pos (by simp [same]),
          List.filter_cons_of_pos (by simp [same]), none, List.nil_append, behind]
      · rw [List.filter_cons_of_neg (by simpa using Nat.le_of_lt more),
          List.filter_cons_of_neg (by simpa using Nat.ne_of_gt more),
          List.filter_cons_of_neg (by simpa using Nat.succ_le_of_lt more), behind]

/-- Ascending postings are made up of those in each interval in turn. -/
theorem flatMap_inInterval {postings : List Posting} (cut : cuts.Pairwise (· < ·))
    (ascending : isAscending (postings.map Posting.docId) = true) :
    (List.range (cuts.length + 1)).flatMap
        (fun i => postings.filter fun p => inInterval cuts i p.docId) = postings := by
  have ordered := List.pairwise_map.mp (isAscending_iff_pairwise.mp ascending)
  have numbered : postings.Pairwise fun p q =>
      cuts.countP (· ≤ p.docId) ≤ cuts.countP (· ≤ q.docId) :=
    ordered.imp fun less => List.countP_mono_left fun c _ upTo => by
      simp only [decide_eq_true_eq] at upTo ⊢
      exact UInt32.le_trans upTo (UInt32.le_of_lt less)
  have parts := flatMap_filter_eq numbered (cuts.length + 1)
  rw [List.filter_eq_self.mpr fun p _ => by
    simpa using Nat.lt_succ_of_le List.countP_le_length] at parts
  refine Eq.trans ?_ parts
  refine List.flatMap_congr fun i listed => ?_
  have le : i ≤ cuts.length := Nat.le_of_lt_succ (List.mem_range.mp listed)
  congr 1
  funext p
  rw [Bool.eq_iff_iff, inInterval_iff cut le, beq_iff_eq]

namespace RunEntry

variable {keep : Posting → Bool} {e restricted : RunEntry}

theorem restrict_eq_some_iff : e.restrict layout keep = some restricted ↔
    e.postings.filter keep ≠ [] ∧ restricted =
      ⟨e.term, .ofPostings layout (e.postings.filter keep), e.postings.filter keep⟩ := by
  unfold restrict
  cases e.postings.filter keep <;> simp [eq_comm]

theorem Sound.restrict (sound : e.Sound layout) (some : e.restrict layout keep = some restricted) :
    restricted.Sound layout := by
  obtain ⟨nonempty, rfl⟩ := restrict_eq_some_iff.mp some
  refine ⟨sound.length_le, nonempty, fun p member => ?_, ?_, rfl⟩
  · exact sound.fits p (List.mem_filter.mp member).1
  · have ordered := List.pairwise_map.mp (isAscending_iff_pairwise.mp sound.ascending)
    exact isAscending_iff_pairwise.mpr (List.pairwise_map.mpr (ordered.filter _))

end RunEntry

namespace Run

variable {run : Run} {index : Nat} {term : Term} {e : RunEntry}

theorem mem_piece {restricted : RunEntry} :
    restricted ∈ (run.piece cuts i).entries.toList ↔ ∃ e ∈ run.entries.toList,
      e.restrict run.layout (fun p => inInterval cuts i p.docId) = some restricted := by
  rw [piece, Array.toList_filterMap, List.mem_filterMap]

theorem sound_piece (sound : run.Sound index layout) (cuts : List UInt32) (i : Nat) :
    (run.piece cuts i).Sound i layout := by
  refine ⟨rfl, sound.layout_eq, ?_, fun restricted listed => ?_⟩
  · have ordered := List.pairwise_map.mp sound.ascending
    rw [terms, piece, Array.toList_filterMap]
    refine List.pairwise_map.mpr (List.Pairwise.filterMap _ ?_ ordered)
    intro a b before restrictedA fromA restrictedB fromB
    obtain ⟨-, rfl⟩ := RunEntry.restrict_eq_some_iff.mp fromA
    obtain ⟨-, rfl⟩ := RunEntry.restrict_eq_some_iff.mp fromB
    exact before
  · obtain ⟨e, member, some⟩ := mem_piece.mp listed
    rw [sound.layout_eq] at some
    exact (sound.entries e member).restrict some

theorem built_piece (built : run.Built index layout) (cuts : List UInt32) (i : Nat) :
    (run.piece cuts i).Built i layout :=
  (sound_piece built.sound cuts i).built

/-- A piece has the postings of a term that fall into its interval. -/
theorem postings_piece (sound : run.Sound index layout) (listed : e ∈ run.entries.toList) :
    (((run.piece cuts i).find? e.term).map (·.postings)).getD [] =
      e.postings.filter fun p => inInterval cuts i p.docId := by
  by_cases none : e.postings.filter (fun p => inInterval cuts i p.docId) = []
  · cases found : (run.piece cuts i).find? e.term with
    | none => exact none.symm
    | some restricted =>
      obtain ⟨other, member, some⟩ := mem_piece.mp (Array.mem_toList_iff.mpr (mem_of_find? found))
      obtain ⟨nonempty, rfl⟩ := RunEntry.restrict_eq_some_iff.mp some
      have same := term_of_find? found
      dsimp only at same
      have here := find?_of_mem sound.ascending member
      rw [same, find?_of_mem sound.ascending listed] at here
      rw [Option.some.inj here] at none
      exact absurd none nonempty
  · have listed := mem_piece.mpr ⟨e, listed, RunEntry.restrict_eq_some_iff.mpr ⟨none, rfl⟩⟩
    rw [find?_of_mem (sound_piece sound cuts i).ascending listed]
    rfl

theorem toList_pieces (run : Run) (cuts : List UInt32) :
    (run.pieces cuts).toList = (List.range (cuts.length + 1)).map (run.piece cuts) :=
  rfl

/-- The pieces have the postings of the run. -/
theorem mergedPostings_pieces (sound : run.Sound index layout) (cut : cuts.Pairwise (· < ·))
    (listed : e ∈ run.entries.toList) :
    mergedPostings (run.pieces cuts).toList e.term = e.postings := by
  rw [mergedPostings_eq_flatMap, toList_pieces, List.flatMap_map]
  simp only [postings_piece sound listed]
  exact flatMap_inInterval cut (sound.entries e listed).ascending

/-- The pieces have the terms of the run. -/
theorem vocabulary_pieces (sound : run.Sound index layout) (cut : cuts.Pairwise (· < ·)) :
    vocabulary (run.pieces cuts).toList = run.terms := by
  refine (ascending_vocabulary _).ext sound.ascending fun term => ⟨fun here => ?_, fun here => ?_⟩
  · obtain ⟨piece, member, here⟩ := mem_vocabulary.mp here
    rw [toList_pieces] at member
    obtain ⟨i, -, rfl⟩ := List.mem_map.mp member
    obtain ⟨restricted, member, rfl⟩ := List.mem_map.mp here
    obtain ⟨e, listed, some⟩ := mem_piece.mp member
    obtain ⟨-, rfl⟩ := RunEntry.restrict_eq_some_iff.mp some
    exact List.mem_map.mpr ⟨e, listed, rfl⟩
  · obtain ⟨e, listed, rfl⟩ := List.mem_map.mp here
    by_contra missing
    have none := mergedPostings_eq_nil missing
    rw [mergedPostings_pieces sound cut listed] at none
    exact (sound.entries e listed).nonempty none

end Run

end IndexMerge
