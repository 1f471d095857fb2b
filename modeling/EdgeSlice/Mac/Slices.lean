import EdgeSlice.CInteger
import Mathlib.Data.List.OfFn
import Mathlib.Data.Rat.Defs

namespace EdgeSlice.Mac

/-- `SLICENUM`, the number of entries of the slice table. -/
def sliceNum : ℕ := 3

/-- One entry of the slice table; quotas are in resource blocks. -/
structure SliceInfos where
  ueId : ℤ
  uRB : ℤ
  dRB : ℤ
  active : ℤ

/-- The part of `Global_Info` that the scheduler reads. -/
structure GlobalInfos where
  sliceInfo : Fin sliceNum → SliceInfos

def GlobalInfos.find (g : GlobalInfos) (ue : ℕ) : Option SliceInfos :=
  (List.ofFn g.sliceInfo).find? (fun s ↦ s.ueId == (ue : ℤ) && s.active == 1)

/-- `UE_RNTI_process_function_downlink`: the quota of the first active entry
of this UE, or the default. -/
def ueRntiProcessFunctionDownlink (g : GlobalInfos) (ue : ℕ) : ℤ :=
  match g.find ue with
  | some s => s.dRB
  | none => 10

def ueRntiProcessFunctionUplink (g : GlobalInfos) (ue : ℕ) : ℤ :=
  match g.find ue with
  | some s => s.uRB
  | none => 10

def initialization : GlobalInfos where
  sliceInfo i := { ueId := i.val, uRB := 10, dRB := 10, active := 1 }

/-- The conversion of a received `double` to `int`: truncation toward zero. -/
def truncate (x : ℚ) : ℤ := x.num.tdiv x.den

/-- `socket_recv_function`. The argument is what `recv` stored, or `none` when
it returned no data. Only the first two slices are ever written. -/
def socketRecvFunction (g : GlobalInfos) : Option (ℕ → ℚ) → GlobalInfos × ℤ
  | none => (g, 0)
  | some data =>
    let set (i : ℕ) (s : SliceInfos) : SliceInfos :=
      { s with uRB := truncate (data (2 * i)), dRB := truncate (data (2 * i + 1)) }
    ({ sliceInfo := fun i ↦ if i.val < 2 then set i (g.sliceInfo i) else g.sliceInfo i }, 1)

def receive (g : GlobalInfos) (messages : List (Option (ℕ → ℚ))) : GlobalInfos :=
  messages.foldl (fun g m ↦ (socketRecvFunction g m).1) g

theorem socketRecvFunction_frame (g : GlobalInfos) (m : Option (ℕ → ℚ)) (i : Fin sliceNum) :
    ((socketRecvFunction g m).1.sliceInfo i).ueId = (g.sliceInfo i).ueId ∧
    ((socketRecvFunction g m).1.sliceInfo i).active = (g.sliceInfo i).active := by
  cases m with
  | none => exact ⟨rfl, rfl⟩
  | some data =>
    simp only [socketRecvFunction]
    split <;> exact ⟨rfl, rfl⟩

theorem receive_frame (g : GlobalInfos) (messages : List (Option (ℕ → ℚ))) (i : Fin sliceNum) :
    ((receive g messages).sliceInfo i).ueId = (g.sliceInfo i).ueId ∧
    ((receive g messages).sliceInfo i).active = (g.sliceInfo i).active := by
  induction messages generalizing g with
  | nil => exact ⟨rfl, rfl⟩
  | cons m messages ih =>
    have h := socketRecvFunction_frame g m i
    have h' := ih (socketRecvFunction g m).1
    exact ⟨h'.1.trans h.1, h'.2.trans h.2⟩

theorem ueRntiProcessFunctionDownlink_ind {g : GlobalInfos} {P : ℤ → Prop} (hdefault : P 10)
    (h : ∀ i, P (g.sliceInfo i).dRB) (ue : ℕ) : P (ueRntiProcessFunctionDownlink g ue) := by
  unfold ueRntiProcessFunctionDownlink
  cases hfind : g.find ue with
  | none => exact hdefault
  | some s =>
    obtain ⟨i, rfl⟩ := List.mem_ofFn.mp (List.mem_of_find?_eq_some hfind)
    exact h i

theorem initialization_downlink (ue : ℕ) : ueRntiProcessFunctionDownlink initialization ue = 10 :=
  ueRntiProcessFunctionDownlink_ind (P := fun q ↦ q = 10) rfl (fun _ ↦ rfl) ue

end EdgeSlice.Mac
