import IndexMerge.Bytes.Recorder

/-!
# What sinks are given

The content of a sink is what its successful deliveries were given, one after another
(`FaithfulSink`). A sink is atomic if a delivery that fails keeps nothing, whatever was delivered
before (`Atomic`); it never fails if no delivery fails after any others, and sealing does not fail
either (`NeverFails`).
-/

namespace IndexMerge

/-- A sink whose content can be told. -/
class FaithfulSink (W : Type) [ByteSink W] where
  /-- What was delivered so far. -/
  content : W → List UInt8
  /-- A delivery that succeeds adds the chunk. -/
  content_write : ∀ {chunk : Array UInt8} {w w' : W}, ByteSink.write chunk w = (.ok (), w') →
    content w' = content w ++ chunk.toList
  /-- Sealing adds nothing. -/
  content_finish : ∀ w : W, content (ByteSink.finish w).2 = content w

instance : FaithfulSink (Array UInt8) where
  content := Array.toList
  content_write := by
    intro chunk w w' written
    cases written
    exact Array.toList_append
  content_finish _ := rfl

instance : FaithfulSink OutputFile where
  content file := file.bytes.toList
  content_write := by
    intro chunk w w' written
    simp only [ByteSink.write] at written
    split at written
    · cases written
    · cases written
      exact Array.toList_append
  content_finish := by
    intro w
    simp only [ByteSink.finish]
    split <;> rfl

instance : FaithfulSink Recorder where
  content r := r.bytes.toList
  content_write := by
    intro chunk w w' written
    simp only [ByteSink.write, Recorder.write] at written
    split at written
    · cases written
    · cases written
      exact Array.toList_append
  content_finish := by
    intro w
    simp only [ByteSink.finish, Recorder.finish]
    split <;> rfl

variable {W : Type} [ByteSink W]

/-- A sink after deliveries. -/
def delivered (chunks : List (Array UInt8)) (w : W) : W :=
  chunks.foldl (fun w chunk => (ByteSink.write chunk w).2) w

/-- Whatever is delivered, a next delivery that fails keeps nothing. -/
def Atomic [FaithfulSink W] (w : W) : Prop :=
  ∀ chunks chunk e, (ByteSink.write chunk (delivered chunks w)).1 = .error e →
    FaithfulSink.content (ByteSink.write chunk (delivered chunks w)).2 =
      FaithfulSink.content (delivered chunks w)

theorem Atomic.write [FaithfulSink W] {w : W} (h : Atomic w) (chunk : Array UInt8) :
    Atomic (ByteSink.write chunk w).2 :=
  fun chunks => h (chunk :: chunks)

theorem Atomic.content_eq [FaithfulSink W] {w w' : W} (h : Atomic w) {chunk : Array UInt8}
    {e : IoFault} (failed : ByteSink.write chunk w = (.error e, w')) :
    FaithfulSink.content w' = FaithfulSink.content w := by
  have kept := h [] chunk e (congrArg Prod.fst failed)
  exact (congrArg (FaithfulSink.content ·.2) failed).symm.trans kept

/-- A recorder keeps nothing of what it fails to record, whichever calls fail. -/
theorem atomic_recorder (r : Recorder) : Atomic r := by
  intro chunks chunk e failed
  generalize delivered chunks r = r at *
  simp only [ByteSink.write, Recorder.write] at failed ⊢
  split at failed
  · rename_i fails
    rw [if_pos fails]
    rfl
  · cases failed

/-- Whatever is delivered, the next delivery and the seal do not fail. -/
def NeverFails (w : W) : Prop :=
  ∀ chunks chunk, (ByteSink.write chunk (delivered chunks w)).1 = .ok () ∧
    (ByteSink.finish (delivered chunks w)).1 = .ok ()

theorem NeverFails.write {w : W} (h : NeverFails w) (chunk : Array UInt8) :
    ∃ w', ByteSink.write chunk w = (.ok (), w') ∧ NeverFails w' := by
  refine ⟨(ByteSink.write chunk w).2, Prod.ext (h [] chunk).1 rfl, ?_⟩
  intro chunks next
  exact h (chunk :: chunks) next

theorem NeverFails.atomic [FaithfulSink W] {w : W} (h : NeverFails w) : Atomic w := by
  intro chunks chunk e failed
  rw [(h chunks chunk).1] at failed
  cases failed

theorem NeverFails.finish {w : W} (h : NeverFails w) :
    ∃ w', ByteSink.finish w = (.ok (), w') :=
  ⟨(ByteSink.finish w).2, Prod.ext (h [] #[]).2 rfl⟩

/-- A sink that never fails and that was given nothing yet. -/
structure Fresh [FaithfulSink W] (w : W) : Prop where
  neverFails : NeverFails w
  empty : FaithfulSink.content w = []

/-- A new file does not fail before it is sealed. -/
theorem fresh_file : Fresh OutputFile.empty := by
  have unsealed : ∀ (chunks : List (Array UInt8)) (file : OutputFile), file.isSealed = false →
      (delivered chunks file).isSealed = false := by
    intro chunks
    induction chunks with
    | nil => exact fun _ isOpen => isOpen
    | cons chunk chunks ih =>
      intro file isOpen
      apply ih
      simp [ByteSink.write, isOpen]
  refine ⟨fun chunks chunk => ?_, rfl⟩
  have isOpen := unsealed chunks .empty rfl
  simp [ByteSink.write, ByteSink.finish, isOpen]

/-- A buffer never fails. -/
theorem fresh_array : Fresh (#[] : Array UInt8) :=
  ⟨fun _ _ => ⟨rfl, rfl⟩, rfl⟩

end IndexMerge
