import IndexMerge.Posting.Sequence

/-!
# Sequences of sources that fail

A source is lossless if it is known what it still has to give and a call that fails gives up nothing
of it (`LosslessSource`). Such sources read as one are lossless again: whichever calls fail, a row
of them gives the postings of its sources one after another, and it ends only behind all of them
(`replies_of_sequence`). What the sources answered, apart from their ends, is what the sequence
answered, so a failure of a source is seen once.
-/

namespace IndexMerge

namespace PostingSource

variable {σ ρ : Type} [PostingSource σ] [PostingSource ρ]

/-- The source after it was asked a number of times, whichever calls failed. -/
def after : Nat → σ → σ
  | 0, s => s
  | n + 1, s => after n (next s).2

/-- What a source answers to its first calls, going on behind failures and behind its end. -/
def replies (n : Nat) (s : σ) : List (Except Error (Option Posting)) :=
  (List.range n).map fun k => (next (after k s)).1

/-- The posting that an answer gives, if it gives one. -/
def given : Except Error (Option Posting) → List Posting
  | .ok (some p) => [p]
  | _ => []

/-- Whether an answer says that there are no postings left. -/
def isEnd : Except Error (Option Posting) → Bool
  | .ok none => true
  | _ => false

theorem after_add (m n : Nat) (s : σ) : after (m + n) s = after n (after m s) := by
  induction m generalizing s with
  | zero => rw [Nat.zero_add]; rfl
  | succ m ih => rw [Nat.add_right_comm]; exact ih (next s).2

theorem after_succ (n : Nat) (s : σ) : after (n + 1) s = (next (after n s)).2 :=
  after_add n 1 s

theorem replies_succ (n : Nat) (s : σ) :
    replies (n + 1) s = replies n s ++ [(next (after n s)).1] := by
  rw [replies, List.range_succ, List.map_append]
  rfl

theorem replies_cons (n : Nat) (s : σ) :
    replies (n + 1) s = (next s).1 :: replies n (next s).2 := by
  rw [replies, List.range_succ_eq_map, List.map_cons, List.map_map]
  rfl

/-- Two sources of which one stands for the other answer alike. -/
theorem replies_of_next {f : σ → ρ} (same : ∀ s, next (f s) = ((next s).1, f (next s).2)) (n : Nat)
    (s : σ) : replies n (f s) = replies n s ∧ after n (f s) = f (after n s) := by
  induction n with
  | zero => exact ⟨rfl, rfl⟩
  | succ n ih =>
    obtain ⟨answers, here⟩ := ih
    rw [replies_succ, replies_succ, after_succ, after_succ, answers, here, same]
    exact ⟨rfl, rfl⟩

end PostingSource

open PostingSource

/-- A source of which it is known what it still has to give: a call gives the first of these
postings or none, and the end is told only when nothing is left. -/
class LosslessSource (σ : Type) [PostingSource σ] where
  /-- The postings that are left, in order. -/
  ahead : σ → List Posting
  ahead_next : ∀ s, ahead s = given (next s).1 ++ ahead (next s).2
  ahead_of_end : ∀ s, (next s).1 = .ok none → ahead s = []

/-- A list that fails at chosen calls is lossless, whichever calls these are. -/
instance : LosslessSource FaultyPostings where
  ahead := FaultyPostings.postings
  ahead_next := by
    intro s
    show s.postings = given s.next.1 ++ s.next.2.postings
    unfold FaultyPostings.next
    dsimp only
    split
    · rfl
    · split <;> rename_i left <;> rw [left] <;> rfl
  ahead_of_end := by
    intro s ended
    have ended : s.next.1 = .ok none := ended
    unfold FaultyPostings.next at ended
    dsimp only at ended
    split at ended
    · cases ended
    · split at ended
      · assumption
      · cases ended

namespace LosslessSource

variable {σ : Type} [PostingSource σ] [LosslessSource σ]

/-- What was given and what is left is what there was. -/
theorem ahead_after (n : Nat) (s : σ) :
    (replies n s).flatMap given ++ ahead (after n s) = ahead s := by
  induction n with
  | zero => rfl
  | succ n ih =>
    rw [replies_succ, after_succ, List.flatMap_append, List.flatMap_singleton, List.append_assoc,
      ← ahead_next, ih]

/-- A call that fails changes nothing of what is left. -/
theorem ahead_of_error {s : σ} {e : Error} (failed : (next s).1 = .error e) :
    ahead (next s).2 = ahead s := by
  rw [ahead_next s, failed]
  rfl

/-- The end is told behind all that there was. -/
theorem given_of_end {n : Nat} {s : σ} (ended : (next (after n s)).1 = .ok none) :
    (replies n s).flatMap given = ahead s := by
  rw [← ahead_after n s, ahead_of_end _ ended, List.append_nil]

end LosslessSource

/-- A source, and what it answered so far. -/
structure LoggedPostings (σ : Type) where
  inner : σ
  log : List (Except Error (Option Posting))

namespace LoggedPostings

variable {σ : Type} [PostingSource σ]

/-- A source that was not asked. -/
def start (s : σ) : LoggedPostings σ := ⟨s, []⟩

/-- The next answer, which is written down. -/
def next : Attempt Error (LoggedPostings σ) (Option Posting) := fun s =>
  let (reply, inner) := PostingSource.next s.inner
  (reply, ⟨inner, s.log ++ [reply]⟩)

instance : PostingSource (LoggedPostings σ) where
  next := next
  left s := PostingSource.left s.inner
  left_next := by
    intro s s' p h
    obtain ⟨given, rfl⟩ := Prod.mk.inj h
    exact PostingSource.left_next (Prod.ext given rfl)

/-- Writing the answers down changes none of them. -/
theorem next_inner (s : LoggedPostings σ) : PostingSource.next s.inner =
    ((PostingSource.next s).1, (PostingSource.next s).2.inner) := rfl

end LoggedPostings

namespace PostingSequence

/-- The sources that have not ended. -/
def waiting {σ : Type} : PostingSequence σ → List σ
  | direct source => [source]
  | concatenated _ rest => rest

/-- The same row of other sources. -/
def map {σ ρ : Type} (f : σ → ρ) : PostingSequence σ → PostingSequence ρ
  | direct source => direct (f source)
  | concatenated ended rest => concatenated (ended.map f) (rest.map f)

theorem map_ofList {σ ρ : Type} (f : σ → ρ) (sources : List σ) :
    (ofList sources).map f = ofList (sources.map f) := by
  rcases sources with _ | ⟨_, _ | ⟨_, _⟩⟩ <;> rfl

theorem waiting_ofList {σ : Type} (sources : List σ) : (ofList sources).waiting = sources := by
  rcases sources with _ | ⟨_, _ | ⟨_, _⟩⟩ <;> rfl

variable {σ ρ : Type} [PostingSource σ] [PostingSource ρ]

theorem nextOf_map {f : σ → ρ}
    (same : ∀ s, PostingSource.next (f s) = ((PostingSource.next s).1, f (PostingSource.next s).2))
    (ended rest : List σ) : nextOf (ended.map f) (rest.map f) =
      ((nextOf ended rest).1, (nextOf ended rest).2.map f) := by
  induction rest generalizing ended with
  | nil => rfl
  | cons source rest ih =>
    rw [List.map_cons, nextOf, nextOf, same]
    rcases PostingSource.next source with ⟨e | _ | p, source'⟩
    · rfl
    · exact ih (source' :: ended)
    · rfl

/-- A row of sources that stand for others stands for the row of these. -/
theorem next_map {f : σ → ρ}
    (same : ∀ s, PostingSource.next (f s) = ((PostingSource.next s).1, f (PostingSource.next s).2))
    (t : PostingSequence σ) : PostingSource.next (t.map f) =
      ((PostingSource.next t).1, (PostingSource.next t).2.map f) := by
  cases t with
  | direct source =>
    show ((PostingSource.next (f source)).1, direct (PostingSource.next (f source)).2) = _
    rw [same]
    rfl
  | concatenated ended rest => exact nextOf_map same ended rest

section Ends

theorem waiting_of_end {ended rest : List σ} (done : (nextOf ended rest).1 = .ok none) :
    ∃ all, (nextOf ended rest).2 = concatenated all [] := by
  induction rest generalizing ended with
  | nil => exact ⟨ended, rfl⟩
  | cons source rest ih =>
    rw [nextOf] at done ⊢
    rcases asked : PostingSource.next source with ⟨e | _ | p, source'⟩ <;> rw [asked] at done
    · cases done
    · exact ih done
    · cases done

theorem isDirect_nextOf (ended rest : List σ) : (nextOf ended rest).2.isDirect = false := by
  induction rest generalizing ended with
  | nil => rfl
  | cons source rest ih =>
    rw [nextOf]
    rcases PostingSource.next source with ⟨e | _ | p, source'⟩
    · rfl
    · exact ih (source' :: ended)
    · rfl

theorem isDirect_after (n : Nat) (t : PostingSequence σ) : (after n t).isDirect = t.isDirect := by
  induction n generalizing t with
  | zero => rfl
  | succ n ih =>
    refine (ih _).trans ?_
    cases t with
    | direct source => rfl
    | concatenated ended rest => exact isDirect_nextOf ended rest

/-- A row that has told its end tells it from then on. -/
theorem next_of_end {t : PostingSequence σ} (row : t.isDirect = false)
    (done : (PostingSource.next t).1 = .ok none) (k : Nat) :
    (PostingSource.next (after k t)).1 = .ok none := by
  have settled : ∀ (k : Nat) (all : List σ),
      after k (concatenated all []) = concatenated all [] := by
    intro k all
    induction k with
    | zero => rfl
    | succ k ih => exact ih
  cases t with
  | direct source => cases row
  | concatenated ended rest =>
    obtain ⟨all, same⟩ := waiting_of_end done
    cases k with
    | zero => exact done
    | succ k =>
      show (PostingSource.next (after k (nextOf ended rest).2)).1 = _
      rw [same, settled]
      rfl

end Ends

section Lossless

open LosslessSource

variable [LosslessSource σ]

theorem ahead_nextOf (ended rest : List σ) :
    rest.flatMap ahead =
        given (nextOf ended rest).1 ++ (nextOf ended rest).2.waiting.flatMap ahead ∧
      ((nextOf ended rest).1 = .ok none → rest.flatMap ahead = []) := by
  induction rest generalizing ended with
  | nil => exact ⟨rfl, fun _ => rfl⟩
  | cons source rest ih =>
    have law := ahead_next source
    have atEnd := ahead_of_end source
    rw [List.flatMap_cons, nextOf]
    rcases asked : PostingSource.next source with ⟨e | _ | p, source'⟩ <;> rw [asked] at law atEnd
    · exact ⟨by rw [law]; rfl, nofun⟩
    · rw [atEnd rfl]
      exact ih (source' :: ended)
    · exact ⟨by rw [law]; rfl, nofun⟩

/-- Lossless sources read as one are lossless. -/
instance : LosslessSource (PostingSequence σ) where
  ahead t := t.waiting.flatMap ahead
  ahead_next := by
    intro t
    cases t with
    | direct source =>
      show ahead source ++ [] = given (PostingSource.next source).1 ++
        (ahead (PostingSource.next source).2 ++ [])
      rw [List.append_nil, List.append_nil]
      exact ahead_next source
    | concatenated ended rest => exact (ahead_nextOf ended rest).1
  ahead_of_end := by
    intro t ended
    cases t with
    | direct source => exact (List.append_nil _).trans (ahead_of_end source ended)
    | concatenated ended' rest => exact (ahead_nextOf ended' rest).2 ended

end Lossless

section Logs

/-- The answers of the sources so far, apart from their ends, in the order of the sources. -/
def answered (t : PostingSequence (LoggedPostings σ)) : List (Except Error (Option Posting)) :=
  (t.sources.flatMap LoggedPostings.log).filter (!isEnd ·)

/-- Of the sources that have not ended, only the first one was asked. -/
def InTurn (t : PostingSequence (LoggedPostings σ)) : Prop := ∀ s ∈ t.waiting.tail, s.log = []

omit [PostingSource σ] in
theorem answered_cons {ended rest : List (LoggedPostings σ)} (s : LoggedPostings σ)
    (unasked : ∀ s ∈ rest, s.log = []) :
    answered (concatenated ended (s :: rest)) =
      (ended.reverse.flatMap LoggedPostings.log).filter (!isEnd ·) ++ s.log.filter (!isEnd ·) := by
  have none : rest.flatMap LoggedPostings.log = [] := List.flatMap_eq_nil_iff.mpr unasked
  rw [answered, sources, List.flatMap_append, List.flatMap_cons, none, List.append_nil,
    List.filter_append]

theorem answered_nextOf (ended : List (LoggedPostings σ)) {rest : List (LoggedPostings σ)}
    (unasked : ∀ s ∈ rest.tail, s.log = []) :
    InTurn (nextOf ended rest).2 ∧ answered (nextOf ended rest).2 =
      answered (concatenated ended rest) ++ [(nextOf ended rest).1].filter (!isEnd ·) := by
  induction rest generalizing ended with
  | nil => exact ⟨unasked, (List.append_nil _).symm⟩
  | cons s rest ih =>
    have unasked : ∀ s ∈ rest, s.log = [] := unasked
    rw [answered_cons s unasked, nextOf]
    rcases asked : PostingSource.next s with ⟨reply, s'⟩
    have log : s'.log = s.log ++ [reply] := by
      obtain ⟨rfl, rfl⟩ := Prod.mk.inj asked
      rfl
    have one : ∀ ended : List (LoggedPostings σ), answered (concatenated ended (s' :: rest)) =
        (ended.reverse.flatMap LoggedPostings.log).filter (!isEnd ·) ++ s.log.filter (!isEnd ·) ++
          [reply].filter (!isEnd ·) := by
      intro ended
      rw [answered_cons s' unasked, log, List.filter_append, List.append_assoc]
    rcases reply with e | _ | p
    · exact ⟨unasked, one ended⟩
    · -- the end of a source is left out, and the row goes on behind it
      have ⟨turn, rest'⟩ := ih (s' :: ended) fun s member => unasked s (List.mem_of_mem_tail member)
      refine ⟨turn, rest'.trans ?_⟩
      have moved : answered (concatenated (s' :: ended) rest) =
          answered (concatenated ended (s' :: rest)) := by
        rw [answered, answered, sources, sources, List.reverse_cons, List.append_assoc]
        rfl
      rw [moved, one ended]
      congr 1
      exact List.append_nil _
    · exact ⟨unasked, one ended⟩

/-- What the sources answered, apart from their ends, is what the sequence answered. -/
theorem answered_after {t : PostingSequence (LoggedPostings σ)} (turn : InTurn t) (n : Nat) :
    InTurn (after n t) ∧
      answered (after n t) = answered t ++ (replies n t).filter (!isEnd ·) := by
  induction n with
  | zero => exact ⟨turn, (List.append_nil _).symm⟩
  | succ n ih =>
    obtain ⟨turn, sofar⟩ := ih
    have next : InTurn (PostingSource.next (after n t)).2 ∧
        answered (PostingSource.next (after n t)).2 = answered (after n t) ++
          [(PostingSource.next (after n t)).1].filter (!isEnd ·) := by
      generalize after n t = u at turn
      cases u with
      | direct s =>
        refine ⟨fun s none => (List.not_mem_nil none).elim, ?_⟩
        show ((s.log ++ [_]) ++ []).filter _ = ((s.log ++ []).filter _) ++ _
        rw [List.append_nil, List.append_nil, List.filter_append]
        rfl
      | concatenated ended rest => exact answered_nextOf ended turn
    rw [after_succ, replies_succ, List.filter_append, ← List.append_assoc, ← sofar]
    exact next

omit [PostingSource σ] in
theorem inTurn_start (t : PostingSequence σ) :
    InTurn (t.map LoggedPostings.start) ∧ answered (t.map LoggedPostings.start) = [] := by
  have unasked : ∀ sources : List σ, ∀ s ∈ sources.map LoggedPostings.start, s.log = [] := by
    intro sources s member
    obtain ⟨_, _, rfl⟩ := List.mem_map.mp member
    rfl
  cases t with
  | direct source => exact ⟨fun s none => (List.not_mem_nil none).elim, rfl⟩
  | concatenated ended rest =>
    refine ⟨fun s member => unasked rest s (List.mem_of_mem_tail member), ?_⟩
    have none : (ended.map LoggedPostings.start).reverse ++ rest.map LoggedPostings.start =
        (ended.reverse ++ rest).map LoggedPostings.start := by simp
    rw [answered, map, sources, none, List.flatMap_eq_nil_iff.mpr (unasked _)]
    rfl

omit [PostingSource σ] in
theorem map_inner_start (t : PostingSequence σ) :
    (t.map LoggedPostings.start).map LoggedPostings.inner = t := by
  cases t with
  | direct source => rfl
  | concatenated ended rest =>
    have same : ∀ sources : List σ,
        (sources.map LoggedPostings.start).map LoggedPostings.inner = sources := by
      intro sources
      rw [List.map_map]
      exact List.map_id sources
    rw [map, map, same, same]

/-- Writing down what the sources answer changes nothing of what the sequence answers. -/
theorem replies_logged (n : Nat) (t : PostingSequence σ) :
    replies n (t.map LoggedPostings.start) = replies n t := by
  have same := (replies_of_next (next_map LoggedPostings.next_inner) n
    (t.map LoggedPostings.start)).1
  rw [map_inner_start] at same
  exact same.symm

end Logs

section Single

/-- A row of one source answers as the source does until it ends, and also when it ends. -/
theorem next_row (s : σ) :
    (PostingSource.next (concatenated [] [s])).1 = (PostingSource.next s).1 ∧
      ((PostingSource.next s).1 ≠ .ok none →
        (PostingSource.next (concatenated [] [s])).2 =
          concatenated [] [(PostingSource.next s).2]) := by
  have answer : PostingSource.next (concatenated [] [s]) = nextOf [] [s] := rfl
  rw [answer, nextOf]
  rcases PostingSource.next s with ⟨e | _ | p, s'⟩
  · exact ⟨rfl, fun _ => rfl⟩
  · exact ⟨rfl, fun running => absurd rfl running⟩
  · exact ⟨rfl, fun _ => rfl⟩

/-- A single source that is passed through answers as it would on its own. -/
theorem replies_direct (n : Nat) (s : σ) :
    replies n (direct s) = replies n s ∧ after n (direct s) = direct (after n s) :=
  replies_of_next (f := direct) (fun _ => rfl) n s

theorem replies_row {n : Nat} {s : σ} (running : ∀ reply ∈ replies n s, reply ≠ .ok none) :
    replies n (concatenated [] [s]) = replies n s ∧
      after n (concatenated [] [s]) = concatenated [] [after n s] := by
  induction n with
  | zero => exact ⟨rfl, rfl⟩
  | succ n ih =>
    rw [replies_succ] at running
    obtain ⟨sofar, here⟩ := ih fun reply member => running reply (List.mem_append_left _ member)
    have ⟨answer, behind⟩ := next_row (after n s)
    rw [replies_succ, replies_succ, after_succ, after_succ, sofar, here, answer,
      behind (running _ (List.mem_append_right _ (List.mem_singleton_self _)))]
    exact ⟨rfl, rfl⟩

end Single

open LosslessSource

/-- Sources that lose nothing when they fail are read as one, whichever of their calls fail and
however often the sequence is asked. What was given and what is left is always what the sources had,
one after another, and a call that fails leaves it. The end is told only when all of it was given,
and if the sources are a row, it is told from then on. Apart from their ends, the answers of the
sources are those of the sequence, each once and in order, failures included. A single source gives
the same answers up to its first end, whether it is passed through or is a row of one. -/
theorem replies_of_sequence [LosslessSource σ] (sources : List σ) (t : PostingSequence σ)
    (n : Nat) :
    (ahead (ofList sources) = sources.flatMap ahead ∧
      ahead (concatenated [] sources) = sources.flatMap ahead) ∧
    (replies n t).flatMap given ++ ahead (after n t) = ahead t ∧
    (∀ e, (next (after n t)).1 = .error e → ahead (after (n + 1) t) = ahead (after n t)) ∧
    ((next (after n t)).1 = .ok none → (replies n t).flatMap given = ahead t ∧
      (t.isDirect = false → ∀ k, n ≤ k → (next (after k t)).1 = .ok none)) ∧
    (let logged := t.map LoggedPostings.start
     replies n logged = replies n t ∧
      answered (after n logged) = (replies n t).filter (!isEnd ·)) ∧
    ∀ s : σ, (∀ reply ∈ replies n (direct s), reply ≠ .ok none) →
      replies (n + 1) (concatenated [] [s]) = replies (n + 1) (direct s) := by
  refine ⟨⟨congrArg (·.flatMap ahead) (waiting_ofList sources), rfl⟩, ahead_after n t,
    fun e failed => ?_, fun ended => ⟨given_of_end ended, fun row k le => ?_⟩,
    ⟨replies_logged n t, ?_⟩, fun s running => ?_⟩
  · rw [after_succ]
    exact ahead_of_error failed
  · obtain ⟨more, rfl⟩ := Nat.exists_eq_add_of_le le
    rw [after_add]
    exact next_of_end ((isDirect_after n t).trans row) ended more
  · have ⟨turn, unasked⟩ := inTurn_start t
    rw [(answered_after turn n).2, unasked, List.nil_append, replies_logged]
  · rw [(replies_direct n s).1] at running
    have ⟨sofar, here⟩ := replies_row running
    rw [replies_succ, replies_succ, (replies_direct n s).1, (replies_direct n s).2, sofar, here,
      (next_row (after n s)).1]
    rfl

/-- The first source fails where its end would be found, and the second one, which is empty, at its
first call. -/
example : replies 6 (ofList [FaultyPostings.mk [⟨3, 1, [], []⟩] 0 (· == 1),
    ⟨[], 0, (· == 0)⟩, ⟨[⟨7, 2, [], []⟩], 0, fun _ => false⟩]) =
    [.ok (some ⟨3, 1, [], []⟩), .error (.io "source" .deviceLost),
      .error (.io "source" .deviceLost), .ok (some ⟨7, 2, [], []⟩), .ok none, .ok none] :=
  rfl

end PostingSequence

end IndexMerge
