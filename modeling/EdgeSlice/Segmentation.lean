import Mathlib.Algebra.GroupWithZero.Nat
import Mathlib.Algebra.Order.BigOperators.Group.List
import Mathlib.Data.List.Induction

/-! Messages that are cut into frames of segments, and put together again. -/

namespace EdgeSlice.Segmentation

variable {α : Type*}

/-- Segments that end with their messages, and one more, which does so if `ends` is set. -/
structure Frame (α : Type*) where
  complete : List (List α)
  last : List α
  ends : Bool

namespace Frame

def payload (f : Frame α) : List α := f.complete.flatten ++ f.last

theorem payload_length (f : Frame α) :
    f.payload.length = (f.complete.map List.length).sum + f.last.length := by
  rw [payload, List.length_append, List.length_flatten]

end Frame

/-- A frame takes what is left of the messages from the head of the queue on. -/
inductive Cut : List (List α) → Frame α → List (List α) → Prop
  | part (a b : List α) (rest : List (List α)) : Cut ((a ++ b) :: rest) ⟨[], a, false⟩ (b :: rest)
  | whole (a : List α) (rest : List (List α)) : Cut (a :: rest) ⟨[], a, true⟩ rest
  | more (a : List α) {queue queue' : List (List α)} {f : Frame α} (h : Cut queue f queue') :
      Cut (a :: queue) ⟨a :: f.complete, f.last, f.ends⟩ queue'

/-- The messages that end within a frame, and what is kept for its last segment. -/
def messages (output : List α) : List (List α) → List (List α) × List α
  | [] => ([], output)
  | segment :: segments =>
    ((output ++ segment) :: (messages [] segments).1, (messages [] segments).2)

/-- The messages that a frame completes, and what is kept for the next one. -/
def reassemble (output : List α) (f : Frame α) : List (List α) × List α :=
  let (done, output') := messages output f.complete
  if f.ends then (done ++ [output' ++ f.last], []) else (done, output' ++ f.last)

/-- The messages of a queue, of the first of which `output` is gone. -/
def restore (output : List α) : List (List α) → List (List α)
  | [] => []
  | rest :: queue => (output ++ rest) :: queue

@[simp] theorem restore_nil_left (queue : List (List α)) : restore [] queue = queue := by
  cases queue with
  | nil => rfl
  | cons rest queue => rfl

theorem Cut.payload_length {queue queue' : List (List α)} {f : Frame α} (h : Cut queue f queue') :
    (queue.map List.length).sum = f.payload.length + (queue'.map List.length).sum := by
  induction h with
  | part a b rest => simp [Frame.payload, Nat.add_assoc]
  | whole a rest => simp [Frame.payload]
  | more a h ih =>
    simp only [List.map_cons, List.sum_cons, ih, Frame.payload, List.flatten_cons,
      List.length_append]
    omega

/-- A frame holds the first elements of the queue. -/
theorem Cut.payload_append {queue queue' : List (List α)} {f : Frame α} (h : Cut queue f queue') :
    f.payload ++ queue'.flatten = queue.flatten := by
  induction h with
  | part a b rest => simp [Frame.payload]
  | whole a rest => simp [Frame.payload]
  | more a h ih =>
    rw [List.flatten_cons, ← ih]
    simp [Frame.payload]

theorem reassemble_cons (output segment : List α) (f : Frame α) :
    reassemble output ⟨segment :: f.complete, f.last, f.ends⟩ =
      ((output ++ segment) :: (reassemble [] f).1, (reassemble [] f).2) := by
  cases hends : f.ends with
  | true => simp [reassemble, messages, hends]
  | false => simp [reassemble, messages, hends]

/-- Nothing is lost between the messages that are complete and those of the queue. -/
theorem Cut.reassemble {queue queue' : List (List α)} {f : Frame α} (h : Cut queue f queue')
    (output : List α) :
    (reassemble output f).1 ++ restore (reassemble output f).2 queue' = restore output queue := by
  induction h generalizing output with
  | part a b rest => simp [Segmentation.reassemble, messages, restore]
  | whole a rest => simp [Segmentation.reassemble, messages, restore_nil_left, restore.eq_2]
  | more a h ih =>
    have hrest := ih []
    rw [restore_nil_left] at hrest
    rw [reassemble_cons]
    exact congrArg ((output ++ a) :: ·) hrest

/-- What is put together for a frame is never longer than the messages that it is cut from. -/
theorem Cut.messages_le {queue queue' : List (List α)} {f : Frame α} (h : Cut queue f queue')
    {output : List α} {n : ℕ} (hn : ∀ message ∈ restore output queue, message.length ≤ n) :
    (∀ message ∈ (messages output f.complete).1, message.length ≤ n) ∧
      ((messages output f.complete).2 ++ f.last).length ≤ n := by
  induction h generalizing output with
  | part a b rest =>
    have hfirst := hn _ List.mem_cons_self
    refine ⟨fun _ hmem ↦ absurd hmem List.not_mem_nil, ?_⟩
    rw [← List.append_assoc, List.length_append] at hfirst
    exact Nat.le_trans (Nat.le_add_right _ _) hfirst
  | whole a rest => exact ⟨fun _ hmem ↦ absurd hmem List.not_mem_nil, hn _ List.mem_cons_self⟩
  | @more a queue queue' f h ih =>
    obtain ⟨hfirst, hothers⟩ := List.forall_mem_cons.mp hn
    rw [← restore_nil_left queue] at hothers
    obtain ⟨hmessages, hlast⟩ := ih hothers
    exact ⟨List.forall_mem_cons.mpr ⟨hfirst, hmessages⟩, hlast⟩

/-- A message that does not end in a frame is still in the queue. -/
theorem Cut.queue_ne_nil {queue queue' : List (List α)} {f : Frame α} (h : Cut queue f queue')
    (hends : f.ends = false) : queue' ≠ [] := by
  induction h with
  | part a b rest => exact List.cons_ne_nil _ _
  | whole a rest => cases hends
  | more a h ih => exact ih hends

theorem reassemble_ends {output : List α} {f : Frame α} (h : f.ends = true) :
    (reassemble output f).2 = [] := by
  simp [reassemble, h]

theorem messages_length (output : List α) (segments : List (List α)) :
    (messages output segments).1.length = segments.length := by
  induction segments generalizing output with
  | nil => rfl
  | cons segment segments ih => exact congrArg (· + 1) (ih [])

theorem reassemble_length (output : List α) (f : Frame α) :
    (reassemble output f).1.length = f.complete.length + f.ends.toNat := by
  have h := messages_length output f.complete
  cases hends : f.ends with
  | true => simp [reassemble, hends, h]
  | false => simp [reassemble, hends, h]

section Lossy

/-! Frames of which some do not arrive. -/

variable {fs fs' : List (Frame α)} {f : Frame α}

/-- The messages that frames complete, and what is kept for the next one. -/
def assemble (fs : List (Frame α)) : List (List α) × List α :=
  fs.foldl (fun (done, output) f ↦ (done ++ (reassemble output f).1, (reassemble output f).2)) ([], [])

theorem assemble_concat (fs : List (Frame α)) (f : Frame α) :
    assemble (fs ++ [f]) =
      ((assemble fs).1 ++ (reassemble (assemble fs).2 f).1, (reassemble (assemble fs).2 f).2) :=
  List.foldl_append

theorem assemble_mono (h : fs <+: fs') : (assemble fs).1 <+: (assemble fs').1 := by
  obtain ⟨rest, rfl⟩ := h
  induction rest using List.reverseRecOn with
  | nil => simp only [List.append_nil, List.prefix_refl]
  | append_singleton rest f ih =>
    rw [← List.append_assoc, assemble_concat]
    exact ih.trans (List.prefix_append _ _)

/-- What a receiver has handed on, and what it keeps for the next frame unless it waits for the beginning of a
message. -/
structure Collector (α : Type*) where
  delivered : List (List α)
  kept : Option (List α)

namespace Collector

variable {c : Collector α}

def start : Collector α := ⟨[], some []⟩

/-- The next frame is missing. -/
def lose (c : Collector α) : Collector α := { c with kept := none }

/-- A frame whose first segment belongs to a message that is lost. -/
def resume (f : Frame α) : Collector α :=
  match f.complete with
  | [] => ⟨[], if f.ends then some [] else none⟩
  | _ :: segments => ⟨(reassemble [] ⟨segments, f.last, f.ends⟩).1, some (reassemble [] ⟨segments, f.last, f.ends⟩).2⟩

/-- The next frame arrives; `first` says that it begins with a message. -/
def receive (first : Bool) (f : Frame α) (c : Collector α) : Collector α :=
  match c.kept with
  | some output => ⟨c.delivered ++ (reassemble output f).1, some (reassemble output f).2⟩
  | none =>
    if first then ⟨c.delivered ++ (reassemble [] f).1, some (reassemble [] f).2⟩
    else ⟨c.delivered ++ (resume f).delivered, (resume f).kept⟩

/-- After the frames `fs`, of which some did not arrive: messages are handed on in their order and at most once, and
nothing is kept but what the next one goes on with. -/
structure InStep (fs : List (Frame α)) (c : Collector α) : Prop where
  delivered : c.delivered.Sublist (assemble fs).1
  kept : ∀ output ∈ c.kept, output = (assemble fs).2

theorem inStep_start : InStep ([] : List (Frame α)) start :=
  ⟨List.Sublist.refl _, fun _ h ↦ (Option.some.inj h).symm⟩

theorem InStep.lose (h : InStep fs c) (hle : fs <+: fs') : InStep fs' c.lose :=
  ⟨h.delivered.trans (assemble_mono hle).sublist, fun _ h ↦ absurd h (Option.not_mem_none _)⟩

theorem resume_sublist (output : List α) (f : Frame α) :
    (resume f).delivered.Sublist (reassemble output f).1 ∧
      ∀ kept ∈ (resume f).kept, kept = (reassemble output f).2 := by
  obtain ⟨complete, last, ends⟩ := f
  cases complete with
  | nil =>
    refine ⟨List.nil_sublist _, ?_⟩
    cases ends with
    | true => exact fun _ h ↦ (Option.some.inj h).symm
    | false => exact fun _ h ↦ absurd h (Option.not_mem_none _)
  | cons segment segments =>
    have hcons := reassemble_cons output segment ⟨segments, last, ends⟩
    dsimp only at hcons
    rw [hcons]
    exact ⟨List.sublist_cons_self _ _, fun _ h ↦ (Option.some.inj h).symm⟩

theorem InStep.receive (h : InStep fs c) {first : Bool} (hfirst : first = true → (assemble fs).2 = []) :
    InStep (fs ++ [f]) (c.receive first f) := by
  rw [Collector.receive]
  split
  · rename_i output hkept
    obtain rfl := h.kept output hkept
    constructor
    · rw [assemble_concat]
      exact h.delivered.append (List.Sublist.refl _)
    · rw [assemble_concat]
      exact fun _ h ↦ (Option.some.inj h).symm
  · split_ifs with hbegins
    · constructor
      · rw [assemble_concat, hfirst hbegins]
        exact h.delivered.append (List.Sublist.refl _)
      · rw [assemble_concat, hfirst hbegins]
        exact fun _ h ↦ (Option.some.inj h).symm
    · obtain ⟨hsublist, hkept⟩ := resume_sublist (assemble fs).2 f
      constructor
      · rw [assemble_concat]
        exact h.delivered.append hsublist
      · rw [assemble_concat]
        exact hkept

end Collector

end Lossy

end EdgeSlice.Segmentation
