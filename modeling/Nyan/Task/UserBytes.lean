import Nyan.Task.PageView

/-!
The bytes that a program finds in its memory. A page is 1024 words, and each word holds
four bytes, least significant first.
-/

namespace Nyan.Task

open Paging

/-- The byte of a page that an address names. -/
def byteIn (page : Page) (addr : VirtualAddress) : BitVec 8 :=
  (page ⟨addr.toNat % 4096 / 4, by omega⟩).extractLsb' (8 * (addr.toNat % 4)) 8

/-- The byte that the program in a space reads at an address, if its page is there. -/
def userByte (s : Paging.System) (k : Nat) (addr : VirtualAddress) : Option (BitVec 8) :=
  (pte s k addr).map fun word => byteIn (s.memory.page (entryAt word)) addr

theorem userByte_of_mapping {s : Paging.System} {k : Nat} {addr : VirtualAddress}
    {place : UserLoc × Fin 1024} {frame : PhysicalAddress} {page : UserPage}
    (hplace : userPlace addr = some place) (h : s.mapping (k, place) = some (frame, page)) :
    userByte s k addr = some (byteIn page.content addr) := by
  obtain ⟨word, hword, heq⟩ := Option.map_eq_some_iff.mp h
  rw [userByte, pte_eq hplace, hword, Option.map_some, ← (Prod.mk.inj heq).2]
  rfl

/-- The bytes of a word that is put together from four. -/
theorem extract_append (byte : Nat → BitVec 8) {n : Nat} (hn : n < 4) :
    (byte 3 ++ byte 2 ++ byte 1 ++ byte 0).extractLsb' (8 * n) 8 = byte n := by
  ext i hi
  simp only [BitVec.getElem_extractLsb', BitVec.getLsbD_append]
  obtain rfl | rfl | rfl | rfl : n = 0 ∨ n = 1 ∨ n = 2 ∨ n = 3 := by omega
  · simp [hi]
  · simp [hi, show ¬ 8 + i < 8 by omega]
  · simp [hi, show ¬ 16 + i < 8 by omega, show ¬ 16 + i - 8 < 8 by omega,
      show 16 + i - 8 - 8 = i by omega]
  · simp [hi, show ¬ 24 + i < 8 by omega, show ¬ 24 + i - 8 < 8 by omega,
      show ¬ 24 + i - 8 - 8 < 8 by omega, show 24 + i - 8 - 8 - 8 = i by omega]

/-- What the loader put into a page, byte by byte. -/
theorem byteIn_pageAt (header : ProgramHeader) (file : BitVec 32 → BitVec 8)
    (addr : VirtualAddress) :
    byteIn (header.pageAt file (thisPage addr)) addr =
      header.byteAt file (thisPage addr) addr := by
  have haddr : thisPage addr +
      BitVec.ofNat 32 (4 * (addr.toNat % 4096 / 4) + addr.toNat % 4) = addr := by
    apply BitVec.eq_of_toNat_eq
    rw [BitVec.toNat_add, BitVec.toNat_ofNat, thisPage_toNat]
    omega
  have hbytes := extract_append (fun n => header.byteAt file (thisPage addr)
    (thisPage addr + BitVec.ofNat 32 (4 * (addr.toNat % 4096 / 4) + n)))
    (Nat.mod_lt addr.toNat (by decide : 0 < 4))
  rw [haddr] at hbytes
  exact hbytes

end Nyan.Task
