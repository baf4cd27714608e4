import AkKernel.Fault
import AkKernel.Foundation.LinkedRing
import AkKernel.Foundation.Runs

/-!
# The kernel's intrusive lists

`list_insert_after`, `list_insert_before` and `list_remove` of `kernel/list.c`. A
`list_head_t` is embedded in its element and `list_elem` recovers the element, so
the node of a list is named by the element itself.
-/

set_option autoImplicit false

namespace AkKernel

open LinkedRing

variable {P : Type} [DecidableEq P]

def listInsertAfter (h : Links P) (after elem : P) : Except Fault (Links P) :=
  let oldnext := (h after).next
  if (h after).next = none ∧ (h after).prev = none then
    let h := setNext (setPrev h after (some elem)) after (some elem)
    .ok (setNext (setPrev h elem (some after)) elem (some after))
  else do
    let h := setNext h after (some elem)
    let o ← deref oldnext
    let h := setPrev h o (some elem)
    let h := setNext h elem oldnext
    .ok (setPrev h elem (some after))

def listInsertBefore (h : Links P) (before elem : P) : Except Fault (Links P) := do
  listInsertAfter h (← deref (h before).prev) elem

def listRemove (h : Links P) (elem : P) : Except Fault (Links P) := do
  let next := (h elem).next
  let prev := (h elem).prev
  let h := setNext (setPrev h elem none) elem none
  let p ← deref prev
  let h := setNext h p next
  let n ← deref next
  .ok (setPrev h n prev)

variable {h : Links P} {c x : P} {l m : List P}

theorem listInsertAfter_ring (hr : Ring h c l) (hx : x ∉ c :: l) :
    ∃ h', listInsertAfter h c x = .ok h' ∧ Ring h' c (x :: l) := by
  obtain ⟨n, p, hn, hp, -⟩ := hr.links_mem List.mem_cons_self
  refine ⟨_, ?_, hr.insert_after hx hn⟩
  simp [listInsertAfter, hn, deref, bind, Except.bind]

theorem listRemove_ring (hr : Ring h c (l ++ x :: m)) :
    ∃ h', listRemove h x = .ok h' ∧ Ring h' c (l ++ m) := by
  obtain ⟨n, p, hn, hp, -⟩ := hr.links_mem (x := x) (by simp)
  refine ⟨_, ?_, hr.remove hn hp⟩
  simp [listRemove, hn, hp, deref, bind, Except.bind]

end AkKernel
