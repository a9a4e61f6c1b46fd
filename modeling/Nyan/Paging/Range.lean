import Nyan.Paging.Address

/-!
`RangeManager` (`paging/range.hpp`): a vector of address ranges kept between
two sentinels, shared by the user address space and the kernel's large-frame
allocator. Iterators are indices into the vector. `__locate` steps back from
the partition point, so it is undefined when no entry begins at or below the
address; `none` stands for that undefined access throughout.

`__erase` calls back for every range of addresses it takes away. The model
returns those calls in their order, and its caller applies them to the page
directory.
-/

namespace Nyan.Paging

/-- What the template asks of an entry: its two bounds, their assignment, and
the two-argument constructor. -/
class RangeEntry (E : Type) where
  beginAddr : E → VirtualAddress
  endAddr : E → VirtualAddress
  make : VirtualAddress → VirtualAddress → E
  setBegin : E → VirtualAddress → E
  setEnd : E → VirtualAddress → E
  beginAddr_make : ∀ b e, beginAddr (make b e) = b
  endAddr_make : ∀ b e, endAddr (make b e) = e
  beginAddr_setBegin : ∀ x b, beginAddr (setBegin x b) = b
  endAddr_setBegin : ∀ x b, endAddr (setBegin x b) = endAddr x
  beginAddr_setEnd : ∀ x e, beginAddr (setEnd x e) = beginAddr x
  endAddr_setEnd : ∀ x e, endAddr (setEnd x e) = e

namespace RangeManager

open RangeEntry

variable {E : Type} [RangeEntry E]

attribute [simp] beginAddr_make endAddr_make beginAddr_setBegin endAddr_setBegin
  beginAddr_setEnd endAddr_setEnd

/-- `contains(addr)`. -/
def Contains (entry : E) (addr : VirtualAddress) : Prop :=
  beginAddr entry ≤ addr ∧ addr < endAddr entry

instance (entry : E) (addr : VirtualAddress) : Decidable (Contains entry addr) :=
  inferInstanceAs (Decidable (_ ∧ _))

/-- `contains(begin, end)`: the bounds are compared, nothing else. -/
def ContainsRange (entry : E) (lower upper : VirtualAddress) : Prop :=
  beginAddr entry ≤ lower ∧ upper ≤ endAddr entry

instance (entry : E) (lower upper : VirtualAddress) :
    Decidable (ContainsRange entry lower upper) :=
  inferInstanceAs (Decidable (_ ∧ _))

/-- `left.bounds(*right, target)`. The right neighbour is read only when the
left comparison succeeds, and reading past the last entry is undefined. -/
def bounds (left : E) (right : Option E) (target : E) : Option Bool :=
  if endAddr left ≤ beginAddr target then
    right.map fun next => decide (endAddr target ≤ beginAddr next)
  else
    some false

/-- The vector built by the constructor. -/
def init (base top : VirtualAddress) : List E := [make 0#32 base, make top 0xFFFFF000#32]

/-- `__locate`: the last entry that begins at or below the address. -/
def locate (addrs : List E) (addr : VirtualAddress) : Option Nat :=
  match (addrs.takeWhile fun entry => decide (beginAddr entry ≤ addr)).length with
  | 0 => none
  | n + 1 => some n

def insert (addrs : List E) (entry : E) : Option (Bool × List E) := do
  let pos ← locate addrs (beginAddr entry)
  let left ← addrs[pos]?
  let fits ← bounds left addrs[pos + 1]? entry
  if fits then
    return (true, addrs.insertIdx (pos + 1) entry)
  else
    return (false, addrs)

/-- The loop of `find_free`, from the entry `pos` over the entries after it. -/
def findFreeFrom (size hint : BitVec 32) (pos : E) : List E → Option VirtualAddress
  | [] => none
  | right :: rest =>
      let lower := if endAddr pos < hint then hint else endAddr pos
      if 2 ^ 32 ≤ lower.toNat + size.toNat then
        none
      else if endAddr pos ≤ lower ∧ lower + size ≤ beginAddr right then
        some lower
      else
        findFreeFrom size hint right rest

/-- `find_free`. The outer option is the undefined access of `__locate`, the
inner one the `std::optional` the source returns. -/
def findFree (base top : VirtualAddress) (addrs : List E) (size : BitVec 32)
    (hint : VirtualAddress) : Option (Option VirtualAddress) :=
  if top ≤ hint then
    some none
  else do
    let hint := if hint < base then base else hint
    let pos ← locate addrs hint
    let entry ← addrs[pos]?
    return findFreeFrom size hint entry (addrs.drop (pos + 1))

/-- The outcome of `__erase`: its return value, the vector afterwards, and the
ranges passed to the release callback in the order of the calls. -/
structure Erased (E : Type) where
  ok : Bool
  addrs : List E
  released : List (VirtualAddress × VirtualAddress)

/-- The branch `left == right` of `__erase`: the range touches one entry. -/
def eraseOne (split : E → E → E) (addrs : List E) (index : Nat) (entry : E)
    (lower upper : VirtualAddress) : Erased E :=
  if lower ≤ beginAddr entry then
    if endAddr entry ≤ upper then
      ⟨true, addrs.eraseIdx index, [(beginAddr entry, endAddr entry)]⟩
    else
      ⟨true, addrs.set index (setBegin entry upper), [(beginAddr entry, upper)]⟩
  else if endAddr entry ≤ upper then
    ⟨true, addrs.set index (setEnd entry lower), [(lower, endAddr entry)]⟩
  else
    ⟨true, (addrs.set index (setBegin entry upper)).insertIdx index
        (split (make (beginAddr entry) lower) entry), [(lower, upper)]⟩

/-- The branch `left < right` of `__erase`: the outer entries are trimmed where
they reach out of the range, and what remains between is removed. -/
def eraseMany (addrs : List E) (left right : Nat) (leftEntry rightEntry : E)
    (lower upper : VirtualAddress) : Erased E :=
  let trimLeft := beginAddr leftEntry < lower
  let trimRight := upper < endAddr rightEntry
  let addrs₁ := if trimLeft then addrs.set left (setEnd leftEntry lower) else addrs
  let addrs₂ := if trimRight then addrs₁.set right (setBegin rightEntry upper) else addrs₁
  let released := (if trimLeft then [(lower, endAddr leftEntry)] else []) ++
    (if trimRight then [(beginAddr rightEntry, upper)] else [])
  let first := if trimLeft then left + 1 else left
  let last := if trimRight then right - 1 else right
  if first ≤ last then
    ⟨true, addrs₂.take first ++ addrs₂.drop (last + 1),
      released ++ ((addrs₂.take (last + 1)).drop first).map
        fun entry => (beginAddr entry, endAddr entry)⟩
  else
    ⟨true, addrs₂, released⟩

/-- The first entry the range can touch: the located one when it contains the
start of the range, otherwise the one after it. -/
def eraseLeft (addrs : List E) (addr : VirtualAddress) : Option Nat := do
  let found ← locate addrs addr
  let entry ← addrs[found]?
  return if Contains entry addr then found else found + 1

/-- The last entry the range can touch, or nothing when the located entry
begins at or above the end of the range and is the first of the vector. -/
def eraseRight (addrs : List E) (upper : VirtualAddress) : Option (Option Nat) := do
  let found ← locate addrs upper
  let entry ← addrs[found]?
  return if upper ≤ beginAddr entry then
      if found = 0 then none else some (found - 1)
    else
      some found

/-- `__erase`. The range is rejected when it starts at or above `Top`, wraps,
or ends above `Top`; nothing is compared with `Base`. -/
def erase (top : VirtualAddress) (split : E → E → E) (addrs : List E)
    (addr : VirtualAddress) (size : BitVec 32) : Option (Erased E) :=
  if top ≤ addr ∨ 2 ^ 32 ≤ addr.toNat + size.toNat ∨ top < addr + size then
    some ⟨false, addrs, []⟩
  else do
    let upper := addr + size
    let left ← eraseLeft addrs addr
    if left = addrs.length then
      return ⟨true, addrs, []⟩
    match ← eraseRight addrs upper with
    | none => return ⟨true, addrs, []⟩
    | some right =>
        if right < left then
          return ⟨true, addrs, []⟩
        let leftEntry ← addrs[left]?
        let rightEntry ← addrs[right]?
        if left = right then
          return eraseOne split addrs left leftEntry addr upper
        else
          return eraseMany addrs left right leftEntry rightEntry addr upper

end RangeManager

end Nyan.Paging
