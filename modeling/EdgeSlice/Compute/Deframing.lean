import EdgeSlice.BigEndian
import Mathlib.Data.List.Chain

namespace EdgeSlice.Compute

abbrev Bytes := List UInt8

/-- `struct.unpack('!i', buf)`. -/
def unpackInt (buf : Bytes) : ℤ :=
  if beValue buf < 2 ^ 31 then beValue buf else (beValue buf : ℤ) - 2 ^ 32

/-- `data[:size]`, which counts from the end for a negative size. -/
def sliceTo (data : Bytes) (size : ℤ) : Bytes :=
  if 0 ≤ size then data.take size.toNat else data.take (data.length - (-size).toNat)

/-- `data[size:]`. -/
def sliceFrom (data : Bytes) (size : ℤ) : Bytes :=
  if 0 ≤ size then data.drop size.toNat else data.drop (data.length - (-size).toNat)

/-- The variables of `recImage`, without a size while the header is read, and what was
handed to the decoder. -/
structure Receiver where
  buf : Bytes
  size : Option ℤ
  data : Bytes
  frames : List Bytes

namespace Receiver

def init : Receiver := ⟨[], none, [], []⟩

/-- A frame is handed over when `data` has its size. -/
def settle (r : Receiver) : Receiver :=
  match r.size with
  | none => r
  | some size =>
    if (r.data.length : ℤ) < size then r
    else ⟨[], none, sliceFrom r.data size, r.frames ++ [sliceTo r.data size]⟩

/-- One call of `recv`, which returns at most `cut` bytes, and what is left of the stream. -/
def recv (r : Receiver) (cut : ℕ) (stream : Bytes) : Receiver × Bytes :=
  match r.size with
  | none =>
    let n := min (4 - r.buf.length) cut
    let buf := r.buf ++ stream.take n
    if buf.length < 4 then ({ r with buf := buf }, stream.drop n)
    else (settle { r with buf := buf, size := some (unpackInt buf) }, stream.drop n)
  | some _ =>
    let n := min 1024 cut
    (settle { r with data := r.data ++ stream.take n }, stream.drop n)

/-- The calls of `recv`, by what each of them may return. -/
def run : List ℕ → Receiver → Bytes → Receiver × Bytes
  | [], r, stream => (r, stream)
  | cut :: cuts, r, stream => run cuts (r.recv cut stream).1 (r.recv cut stream).2

end Receiver

def header (frame : Bytes) : Bytes := beBytes 4 frame.length

/-- The frames back to back on the connection. -/
def wire (frames : List Bytes) : Bytes := frames.flatMap fun frame ↦ header frame ++ frame

/-- However the stream is cut, the decoder gets the frames. -/
def Deframes (frames : List Bytes) : Prop :=
  ∀ cuts : List ℕ, (∀ cut ∈ cuts, 0 < cut) → ∀ r,
    Receiver.init.run cuts (wire frames) = (r, []) → r.frames = frames

/-- A frame that begins like its header for longer than one `recv` can reach into it. -/
def SelfDescribing (frame : Bytes) : Prop :=
  ∃ c, c ≠ 0 ∧ List.replicate 1027 c <+: header frame ++ frame

namespace Receiver

theorem run_append (cuts cuts' : List ℕ) (r : Receiver) (stream : Bytes) :
    r.run (cuts ++ cuts') stream = (r.run cuts stream).1.run cuts' (r.run cuts stream).2 := by
  induction cuts generalizing r stream with
  | nil => rfl
  | cons cut cuts ih => exact ih _ _

theorem settle_frames (r : Receiver) : r.frames <+: r.settle.frames := by
  unfold settle
  split
  · exact List.prefix_rfl
  · split
    · exact List.prefix_rfl
    · exact List.prefix_append _ _

theorem recv_frames (r : Receiver) (cut : ℕ) (stream : Bytes) :
    r.frames <+: (r.recv cut stream).1.frames := by
  unfold recv
  split
  · simp only
    split
    · exact List.prefix_rfl
    · exact settle_frames { r with buf := _, size := some _ }
  · simp only
    exact settle_frames { r with data := r.data ++ stream.take (min 1024 cut) }

theorem run_frames (cuts : List ℕ) (r : Receiver) (stream : Bytes) :
    r.frames <+: (r.run cuts stream).1.frames := by
  induction cuts generalizing r stream with
  | nil => exact List.prefix_rfl
  | cons cut cuts ih => exact (recv_frames r cut stream).trans (ih _ _)

/-- Reading a header takes four bytes of the stream, or the stream ends within it. -/
theorem run_header {cuts : List ℕ} {buf data stream : Bytes} {frames : List Bytes} {r : Receiver}
    (hcuts : ∀ cut ∈ cuts, 0 < cut) (hbuf : buf.length < 4)
    (hrun : (⟨buf, none, data, frames⟩ : Receiver).run cuts stream = (r, [])) :
    (buf ++ stream).length < 4 ∧ r.frames = frames ∨
    4 ≤ (buf ++ stream).length ∧ ∃ cuts' : List ℕ, (∀ cut ∈ cuts', 0 < cut) ∧
      (settle ⟨(buf ++ stream).take 4, some (unpackInt ((buf ++ stream).take 4)), data, frames⟩).run
        cuts' ((buf ++ stream).drop 4) = (r, []) := by
  induction cuts generalizing buf stream with
  | nil =>
    cases hrun
    rw [List.append_nil]
    exact .inl ⟨hbuf, rfl⟩
  | cons cut cuts ih =>
    have hcuts' : ∀ c ∈ cuts, 0 < c := fun c hc ↦ hcuts c (List.mem_cons_of_mem _ hc)
    rw [run, recv] at hrun
    simp only at hrun
    have hsplit : buf ++ stream.take (min (4 - buf.length) cut) ++
        stream.drop (min (4 - buf.length) cut) = buf ++ stream := by
      rw [List.append_assoc, List.take_append_drop]
    split at hrun
    · rename_i hshort
      have := ih hcuts' hshort hrun
      rwa [hsplit] at this
    · rename_i hlong
      have hlen : (buf ++ stream.take (min (4 - buf.length) cut)).length = 4 := by
        rw [List.length_append, List.length_take] at hlong ⊢
        omega
      have htake : (buf ++ stream).take 4 = buf ++ stream.take (min (4 - buf.length) cut) := by
        rw [← hsplit, List.take_append_of_le_length hlen.ge, List.take_of_length_le hlen.le]
      have hdrop : (buf ++ stream).drop 4 = stream.drop (min (4 - buf.length) cut) := by
        rw [← hsplit, List.drop_append_of_le_length hlen.ge, List.drop_of_length_le hlen.le,
          List.nil_append]
      refine .inr ⟨?_, cuts, hcuts', ?_⟩
      · rw [← hsplit]
        exact hlen.ge.trans (List.prefix_append _ _).length_le
      · rw [htake, hdrop]
        exact hrun

/-- Reading a payload hands over the first bytes of `data` and the stream, and leaves less
than one `recv` in `data`, or the stream ends within it. -/
theorem run_payload {cuts : List ℕ} {buf data stream : Bytes} {frames : List Bytes} {r : Receiver}
    {n : ℕ} (hcuts : ∀ cut ∈ cuts, 0 < cut) (hdata : data.length < n)
    (hrun : (⟨buf, some n, data, frames⟩ : Receiver).run cuts stream = (r, [])) :
    (data ++ stream).length < n ∧ r.frames = frames ∨
    ∃ m, n ≤ m ∧ m < n + 1024 ∧ m ≤ (data ++ stream).length ∧
      ∃ cuts' : List ℕ, (∀ cut ∈ cuts', 0 < cut) ∧
        (⟨[], none, ((data ++ stream).take m).drop n, frames ++ [(data ++ stream).take n]⟩ :
          Receiver).run cuts' ((data ++ stream).drop m) = (r, []) := by
  induction cuts generalizing data stream with
  | nil =>
    cases hrun
    rw [List.append_nil]
    exact .inl ⟨hdata, rfl⟩
  | cons cut cuts ih =>
    have hcuts' : ∀ c ∈ cuts, 0 < c := fun c hc ↦ hcuts c (List.mem_cons_of_mem _ hc)
    rw [run, recv] at hrun
    simp only at hrun
    have hsplit : data ++ stream.take (min 1024 cut) ++ stream.drop (min 1024 cut) =
        data ++ stream := by
      rw [List.append_assoc, List.take_append_drop]
    rw [settle] at hrun
    simp only at hrun
    split at hrun
    · rename_i hshort
      have := ih hcuts' (Int.ofNat_lt.mp hshort) hrun
      rwa [hsplit] at this
    · rename_i hlong
      have hle : n ≤ (data ++ stream.take (min 1024 cut)).length := by omega
      have hm : (data ++ stream.take (min 1024 cut)).length < n + 1024 := by
        rw [List.length_append, List.length_take]
        omega
      refine .inr ⟨(data ++ stream.take (min 1024 cut)).length, hle, hm, ?_, cuts, hcuts', ?_⟩
      · rw [← hsplit]
        exact (List.prefix_append _ _).length_le
      · rw [← hsplit, List.take_left, List.drop_left, List.take_append_of_le_length hle]
        simp only [sliceFrom, sliceTo, Int.natCast_nonneg, if_true, Int.toNat_natCast] at hrun
        exact hrun

end Receiver

end EdgeSlice.Compute
