import StreamMill.Window.WindowBuf

/-!
# StreamMill.Window.DeleteInt

`deleteGreaterInt` and `deleteLesserInt` of `winbuf.cc`, by which MAX and MIN drop what can no
longer become the extreme of a window. They compare the integer in the first bytes of a tuple.
-/

namespace StreamMill.Window

open ImDb Lib
open Table (leBytes leNat leBytes_length leNat_leBytes)

/-- The data of a tuple, which begin with an integer. -/
structure IntData where
  bytes : List Byte
  room : 4 ≤ bytes.length
  deriving DecidableEq

instance : Inhabited IntData := ⟨⟨leBytes 4 0, by rw [leBytes_length]⟩⟩

def IntData.val (d : IntData) : BitVec 32 := BitVec.ofNat 32 (leNat (d.bytes.take 4))

def intData (val : BitVec 32) (rest : List Byte) : IntData :=
  ⟨leBytes 4 val.toNat ++ rest, by rw [List.length_append, leBytes_length]; omega⟩

theorem intData_val (val : BitVec 32) (rest : List Byte) : (intData val rest).val = val := by
  rw [IntData.val, intData, List.take_left' (leBytes_length 4 _), leNat_leBytes val.isLt]
  exact BitVec.ofNat_toNat _ _

def Winbuf.deleteGreaterInt (w : Winbuf IntData) (testVal : BitVec 32) :
    Except Fault (Winbuf IntData) :=
  deleteIf (fun d => d.val.toInt > testVal.toInt) (w.b.fuel + 1) .first w

def Winbuf.deleteLesserInt (w : Winbuf IntData) (testVal : BitVec 32) :
    Except Fault (Winbuf IntData) :=
  deleteIf (fun d => d.val.toInt < testVal.toInt) (w.b.fuel + 1) .first w

variable {w : Winbuf IntData} {es : List (WinTuple IntData)}

/-- They return, with the other tuples left in their order. -/
theorem deleteInt_holds (h : w.Holds es) (testVal : BitVec 32) :
    (∃ w', w.deleteGreaterInt testVal = .ok w' ∧
      w'.Holds (es.filter fun d => d.value.val.toInt ≤ testVal.toInt) ∧ SameIds w w') ∧
    ∃ w', w.deleteLesserInt testVal = .ok w' ∧
      w'.Holds (es.filter fun d => testVal.toInt ≤ d.value.val.toInt) ∧ SameIds w w' := by
  have hgt : ∀ d : WinTuple IntData, (!decide (d.value.val.toInt > testVal.toInt)) =
      decide (d.value.val.toInt ≤ testVal.toInt) := fun d => by
    rw [← decide_not, decide_eq_decide, not_lt]
  have hlt : ∀ d : WinTuple IntData, (!decide (d.value.val.toInt < testVal.toInt)) =
      decide (testVal.toInt ≤ d.value.val.toInt) := fun d => by
    rw [← decide_not, decide_eq_decide, not_lt]
  constructor
  · obtain ⟨w', hrun, hw', hsame⟩ := deleteIf_holds (fun d => d.val.toInt > testVal.toInt) h
    simp only [hgt] at hw'
    exact ⟨w', hrun, hw', hsame⟩
  · obtain ⟨w', hrun, hw', hsame⟩ := deleteIf_holds (fun d => d.val.toInt < testVal.toInt) h
    simp only [hlt] at hw'
    exact ⟨w', hrun, hw', hsame⟩

/-- Two tuples, the head of which goes. -/
theorem deleteInt_holds_two : ∃ w w' : Winbuf IntData,
    w.Holds [⟨intData 9 [], 0⟩, ⟨intData 4 [1], 0⟩] ∧ w.deleteGreaterInt 5 = .ok w' ∧
      w'.Holds [⟨intData 4 [1], 0⟩] := by
  obtain ⟨w₁, -, hw₁, -, hid₁, -⟩ := put_holds
    (newWinbuf_holds (fun _ => ⟨emptyKey, ⟨default, 0⟩, false, 0, 0, none⟩) 5) (intData 9 [])
  obtain ⟨w₂, -, hw₂, -⟩ := put_holds hw₁ (intData 4 [1])
  rw [hid₁] at hw₂
  obtain ⟨⟨w', hrun, hw', -⟩, -⟩ := deleteInt_holds hw₂ 5
  refine ⟨w₂, w', hw₂, hrun, ?_⟩
  simpa [newWinbuf, intData_val] using hw'

end StreamMill.Window
