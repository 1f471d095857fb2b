import EdgeSlice.Compute.FrameAlignment

namespace EdgeSlice.Compute

open Receiver

variable {frames rest : List Bytes} {frame g data stream : Bytes} {r : Receiver}

/-- From a state between two frames, with a surplus or not, the rest is handed over however
the stream is cut. -/
def Continues (data stream : Bytes) (frames rest : List Bytes) : Prop :=
  ∀ cuts : List ℕ, (∀ cut ∈ cuts, 0 < cut) → ∀ r,
    (⟨[], none, data, frames⟩ : Receiver).run cuts stream = (r, []) → r.frames = frames ++ rest

theorem Continues.next_frame (h : Continues data stream frames (g :: rest)) :
    4 ≤ stream.length ∧ (unpackInt (stream.take 4) = g.length ∨
      unpackInt (stream.take 4) < 0 ∧ g.length ≤ data.length - 1) := by
  obtain ⟨cuts, hcuts, r, hrun⟩ := exists_run stream (r := ⟨[], none, data, frames⟩)
    (fun _ ↦ nil_length_lt)
  exact Receiver.next_frame hcuts hrun (h cuts hcuts r hrun)

theorem Continues.lt (h : Continues [] (wire (g :: rest)) frames (g :: rest))
    (hlen : g.length < 2 ^ 32) : g.length < 2 ^ 31 := by
  obtain ⟨-, hnext⟩ := h.next_frame
  have htake : (wire (g :: rest)).take 4 = header g := by
    rw [wire_cons, List.append_assoc, List.take_left' (header_length g)]
  rw [htake, unpackInt, beValue_header hlen, List.length_nil] at hnext
  by_contra hge
  rw [if_neg hge] at hnext
  omega

/-- The state with a surplus of `d` bytes behind a frame is one that occurs. -/
theorem Continues.surplus (h : Continues [] (wire (frame :: rest)) frames (frame :: rest))
    (hlen : frame.length < 2 ^ 31) {d : ℕ} (hd : d ≤ 1023) (hempty : frame = [] → d = 0) :
    Continues ((wire rest).take d) ((wire rest).drop d) (frames ++ [frame]) rest := by
  intro cuts hcuts r hrun
  obtain ⟨front, hfront, hframe⟩ := exists_run_frame frames (wire rest) hlen hd hempty
  rw [← List.append_cons]
  apply h (front ++ cuts)
  · intro cut hcut
    rcases List.mem_append.mp hcut with hcut | hcut
    · exact hfront cut hcut
    · exact hcuts cut hcut
  · rw [wire_cons, run_append, hframe]
    exact hrun

theorem header_eq_four (frame : Bytes) : ∃ h₀ h₁ h₂ h₃, header frame = [h₀, h₁, h₂, h₃] := by
  have hlen := header_length frame
  match hheader : header frame with
  | [h₀, h₁, h₂, h₃] => exact ⟨h₀, h₁, h₂, h₃, rfl⟩
  | [] | [_] | [_, _] | [_, _, _] | _ :: _ :: _ :: _ :: _ :: _ =>
    rw [hheader] at hlen
    simp at hlen

theorem eq_nil_of_header (hlen : frame.length < 2 ^ 32) (h : header frame = [0, 0, 0, 0]) :
    frame = [] := by
  have hvalue := beValue_header hlen
  rw [h] at hvalue
  exact List.length_eq_zero_iff.mp hvalue.symm

/-- With one zero byte of a header in `data` the frames that follow are not handed over. -/
theorem not_continues_zero (hlen : ∀ f ∈ rest, f.length < 2 ^ 32)
    (hwire : wire rest = 0 :: stream) : ¬Continues [0] stream frames rest := by
  induction rest generalizing stream frames with
  | nil => cases hwire
  | cons g rest ih =>
    intro h
    obtain ⟨hfour, hnext⟩ := h.next_frame
    have hg : g = [] := by
      rcases hnext with hnext | ⟨-, hnext⟩
      · have hheader := eq_header (List.length_take_of_le hfour) hnext
        obtain ⟨h₀, h₁, h₂, h₃, hbytes⟩ := header_eq_four g
        cases g with
        | nil => rfl
        | cons x g =>
          rw [wire_cons, hbytes] at hwire
          obtain ⟨rfl, rfl⟩ := List.cons.inj hwire
          rw [hbytes] at hheader
          obtain ⟨rfl, rfl, rfl, rfl⟩ : h₁ = 0 ∧ h₂ = h₁ ∧ h₃ = h₂ ∧ x = h₃ := by
            simpa using hheader
          exact eq_nil_of_header (hlen _ List.mem_cons_self) hbytes
      · exact List.length_eq_zero_iff.mp (Nat.le_zero.mp hnext)
    subst hg
    obtain rfl : 0 :: 0 :: 0 :: wire rest = stream := (List.cons.inj hwire).2
    cases htail : wire rest with
    | nil =>
      rw [htail] at hfour
      exact absurd hfour (by decide)
    | cons x tail =>
      have hx : x = 0 := by
        rw [htail, List.take_succ_cons, List.take_succ_cons, List.take_succ_cons,
          List.take_succ_cons, List.take_zero, List.length_nil] at hnext
        have hvalue : beValue [0, 0, 0, x] = x.toNat := Nat.zero_add _
        have hlt : x.toNat < 256 := x.toNat_lt
        rw [unpackInt, hvalue, if_pos (by omega)] at hnext
        apply UInt8.toNat_inj.mp
        rw [UInt8.toNat_zero]
        omega
      subst hx
      apply ih (fun f hf ↦ hlen f (List.mem_cons_of_mem _ hf)) htail
      intro cuts hcuts r hrun
      rw [← List.append_cons]
      apply h (4 :: cuts)
      · intro cut hcut
        rcases List.mem_cons.mp hcut with rfl | hcut
        · exact Nat.succ_pos 3
        · exact hcuts cut hcut
      · have hrecv : (⟨[], none, [0], frames⟩ : Receiver).recv 4 (0 :: 0 :: 0 :: 0 :: tail) =
            (⟨[], none, [0], frames ++ [[]]⟩, tail) := rfl
        rw [htail, run, hrecv]
        exact hrun

theorem wire_cons_nil (rest : List Bytes) : wire ([] :: rest) = 0 :: 0 :: 0 :: 0 :: wire rest := rfl

theorem Continues.second_ne_nil (h : Continues [] (wire (frame :: g :: rest)) frames (frame :: g :: rest))
    (hne : frame ≠ []) (hlen : ∀ f ∈ frame :: g :: rest, f.length < 2 ^ 32) : g ≠ [] := by
  rintro rfl
  have hframe := h.lt (hlen frame List.mem_cons_self)
  have hone := h.surplus hframe (d := 1) (by decide) fun hnil ↦ absurd hnil hne
  rw [wire_cons_nil, List.take_succ_cons, List.take_zero, List.drop_succ_cons, List.drop_zero] at hone
  exact not_continues_zero (fun f hf ↦ hlen f (List.mem_cons_of_mem _ hf)) (wire_cons_nil rest) hone

/-- Wherever the `recv` that reads its end stops, the next four bytes are the header of the
next frame. -/
theorem Continues.take_header (h : Continues [] (wire (frame :: g :: rest)) frames (frame :: g :: rest))
    (hne : frame ≠ []) (hlen : frame.length < 2 ^ 32) (hg : g ≠ []) {d : ℕ} (hd : d ≤ 1023)
    (hdg : d ≤ g.length) :
    ((header g ++ g).drop d).take 4 = header g := by
  obtain ⟨hfour, hnext⟩ :=
    (h.surplus (h.lt hlen) hd fun hnil ↦ absurd hnil hne).next_frame
  have hinside : ((wire (g :: rest)).drop d).take 4 = ((header g ++ g).drop d).take 4 := by
    have hback : 4 ≤ ((header g ++ g).drop d).length := by
      rw [List.length_drop, List.length_append, header_length]
      omega
    rw [wire_cons, List.drop_append_of_le_length (by rw [List.length_append, header_length]; omega),
      List.take_append_of_le_length hback]
  rw [← hinside]
  rcases hnext with hnext | ⟨-, hshort⟩
  · exact eq_header (List.length_take_of_le hfour) hnext
  · have hpos : 0 < g.length := List.length_pos_iff.mpr hg
    rw [List.length_take] at hshort
    omega

theorem Continues.header_replicate
    (h : Continues [] (wire (frame :: g :: rest)) frames (frame :: g :: rest)) (hne : frame ≠ [])
    (hlen : ∀ f ∈ frame :: g :: rest, f.length < 2 ^ 32) :
    ∃ c, c ≠ 0 ∧ header g = List.replicate 4 c := by
  have hg := h.second_ne_nil hne hlen
  have hone := h.take_header hne (hlen frame List.mem_cons_self) hg (d := 1) (by decide)
    (List.length_pos_iff.mpr hg)
  obtain ⟨h₀, h₁, h₂, h₃, hbytes⟩ := header_eq_four g
  cases g with
  | nil => exact absurd rfl hg
  | cons x g =>
    rw [hbytes] at hone
    obtain ⟨rfl, rfl, rfl, rfl⟩ : h₁ = h₀ ∧ h₂ = h₁ ∧ h₃ = h₂ ∧ x = h₃ := by
      simpa using hone
    refine ⟨x, ?_, hbytes⟩
    rintro rfl
    exact hg (eq_nil_of_header (hlen _ (List.mem_cons_of_mem _ List.mem_cons_self)) hbytes)

theorem length_of_header_replicate {c : UInt8} (hlen : g.length < 2 ^ 32) (hc : c ≠ 0)
    (h : header g = List.replicate 4 c) : 1023 ≤ g.length := by
  have hvalue := beValue_header hlen
  rw [h] at hvalue
  have hpos : 0 < c.toNat := Nat.pos_of_ne_zero fun hzero ↦ hc (UInt8.toNat_inj.mp hzero)
  have hfour : beValue (List.replicate 4 c) =
      256 * (256 * (256 * (256 * 0 + c.toNat) + c.toNat) + c.toNat) + c.toNat := rfl
  omega

theorem Continues.selfDescribing
    (h : Continues [] (wire (frame :: g :: rest)) frames (frame :: g :: rest)) (hne : frame ≠ [])
    (hlen : ∀ f ∈ frame :: g :: rest, f.length < 2 ^ 32) : SelfDescribing g := by
  have hg := h.second_ne_nil hne hlen
  obtain ⟨c, hc, hheader⟩ := h.header_replicate hne hlen
  have hlong := length_of_header_replicate (hlen g (List.mem_cons_of_mem _ List.mem_cons_self)) hc hheader
  refine ⟨c, hc, List.prefix_iff_eq_take.mpr ?_⟩
  symm
  rw [List.length_replicate, List.eq_replicate_iff]
  refine ⟨?_, fun b hb ↦ ?_⟩
  · rw [List.length_take, List.length_append, header_length]
    omega
  · obtain ⟨i, hi, rfl⟩ := List.mem_iff_getElem.mp hb
    rw [List.length_take] at hi
    have hat := h.take_header hne (hlen frame List.mem_cons_self) hg (d := min i 1023)
      (min_le_right i 1023) ((min_le_right i 1023).trans hlong)
    rw [hheader] at hat
    have hget := congrArg (·[i - min i 1023]?) hat
    rw [List.getElem?_take_of_lt (by omega), List.getElem?_drop, Nat.add_sub_cancel' (min_le_left i 1023),
      List.getElem?_replicate_of_lt (by omega)] at hget
    rw [List.getElem_take]
    rw [← hheader] at hget
    exact (List.getElem?_eq_some_iff.mp hget).2

theorem Continues.pairs (h : Continues [] (wire rest) frames rest)
    (hlen : ∀ f ∈ rest, f.length < 2 ^ 32) :
    (∀ f ∈ rest, f.length < 2 ^ 31) ∧ rest.IsChain fun f g ↦ f = [] ∨ SelfDescribing g := by
  induction rest generalizing frames with
  | nil => exact ⟨List.forall_mem_nil _, List.isChain_nil⟩
  | cons f rest ih =>
    have hf := h.lt (hlen f List.mem_cons_self)
    have hrest := h.surplus hf (d := 0) (Nat.zero_le _) fun _ ↦ rfl
    obtain ⟨hall, hchain⟩ := ih hrest fun g hg ↦ hlen g (List.mem_cons_of_mem _ hg)
    refine ⟨List.forall_mem_cons.mpr ⟨hf, hall⟩, ?_⟩
    cases rest with
    | nil => exact List.isChain_singleton f
    | cons g rest =>
      refine List.isChain_cons_cons.mpr ⟨?_, hchain⟩
      by_cases hnil : f = []
      · exact .inl hnil
      · exact .inr (h.selfDescribing hnil hlen)

/-- The decoder gets the sent frames however the stream is cut only when no frame but an empty
one stands in front of a frame that does not begin like its own header. -/
theorem deframes_iff (h : ∀ frame ∈ frames, frame.length < 2 ^ 32) :
    Deframes frames ↔ (∀ frame ∈ frames, frame.length < 2 ^ 31) ∧
      frames.IsChain fun f g ↦ f = [] ∨ SelfDescribing g := by
  constructor
  · intro hdeframes
    have hcontinues : Continues [] (wire frames) [] frames := hdeframes
    exact hcontinues.pairs h
  · rintro ⟨hlen, hpairs⟩ cuts hcuts r hrun
    have hrun' : (⟨[], none, [], []⟩ : Receiver).run cuts (wire frames) = (r, []) := hrun
    exact run_wire hcuts (Nat.zero_le _) rfl (fun hne ↦ absurd rfl hne) hlen hpairs hrun'

theorem emptyFrame_deframes : Deframes [[], [255, 216]] := by
  refine (deframes_iff ?_).mpr ⟨?_, ?_⟩
  · decide
  · decide
  · exact List.isChain_cons_cons.mpr ⟨.inl rfl, List.isChain_singleton _⟩

theorem not_deframes : ¬Deframes [[255], [216]] := by
  intro h
  have := h [4, 1024] (by decide) ⟨[], none, [0, 0, 0, 1, 216], [[255]]⟩ rfl
  exact absurd this (by decide)

end EdgeSlice.Compute
