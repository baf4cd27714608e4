import AkKernel.Foundation.Runs
import Mathlib.Data.Set.Defs

/-!
# Two areas that grow in one address space

Addresses are numbers, `g` of them to a page. The heap grows at its end, and the pages there
that have no frame get one. Regions are given out one behind the other with `g` addresses
between them, and every page that the loop over a region comes to gets another frame.
-/

set_option autoImplicit false

namespace Areas

open Runs

/-- The pages that a loop from `start` up to `limit` by steps of `g` comes to. -/
def passed (g start limit : Nat) : Set Nat := { p | start / g ≤ p ∧ p * g + start % g < limit }

/-- The heap from `heap` to `brk`, and the regions from `base` to `next`, each with its length. -/
structure Layout where
  heap : Nat
  brk : Nat
  base : Nat
  next : Nat
  regions : List (Nat × Nat)

def InRegion (r : Nat × Nat) (a : Nat) : Prop := r.1 ≤ a ∧ a < r.1 + r.2

def Layout.Owns (l : Layout) (a : Nat) : Prop :=
  l.heap ≤ a ∧ a < l.brk ∨ ∃ r ∈ l.regions, InRegion r a

def Layout.growHeap (l : Layout) (brk : Nat) : Layout := { l with brk := brk }

def Layout.addRegion (g : Nat) (l : Layout) (length : Nat) : Layout :=
  { l with next := l.next + length + g, regions := l.regions ++ [(l.next, length)] }

/-- Two pages behind each area are still apart from the other area. -/
def Layout.Apart (g : Nat) (l : Layout) : Prop :=
  l.brk + 2 * g ≤ l.base ∨ l.next + 2 * g ≤ l.heap

inductive Request where
  | heap (brk : Nat)
  | region (length : Nat)

/-- The areas and the frames behind the pages. -/
structure Space (φ : Type) where
  layout : Layout
  frame : Nat → Option φ

/-- What a request does to the pages. -/
inductive Step {φ : Type} (g : Nat) (s : Space φ) : Request → Space φ → Prop where
  | heap (brk : Nat) (frame : Nat → Option φ) : s.layout.brk ≤ brk →
      (∀ p ∈ passed g s.layout.brk (brk + g), frame p ≠ none) →
      (∀ p, s.frame p ≠ none → frame p = s.frame p) →
      Step g s (.heap brk) ⟨s.layout.growHeap brk, frame⟩
  | region (length : Nat) (frame : Nat → Option φ) : (s.layout.addRegion g length).Apart g →
      (∀ p ∈ passed g s.layout.next (s.layout.next + length + g + g), frame p ≠ none) →
      (∀ p, p ∉ passed g s.layout.next (s.layout.next + length + g + g) → frame p = s.frame p) →
      Step g s (.region length) ⟨s.layout.addRegion g length, frame⟩

/-- All that is given out has a frame, and there is a page behind each region. -/
structure Space.Sound {φ : Type} (g : Nat) (s : Space φ) : Prop where
  heap_le : s.layout.heap ≤ s.layout.brk
  base_le : s.layout.base ≤ s.layout.next
  backed : ∀ a, s.layout.Owns a → s.frame (a / g) ≠ none
  behind : ∀ r ∈ s.layout.regions, r.1 + r.2 + g ≤ s.layout.next
  apart : s.layout.regions.Pairwise fun r r' => r.1 + r.2 ≤ r'.1

/-- From `s` to `t` nothing that was given out is lost or gets another frame. -/
structure Kept {φ : Type} (g : Nat) (s t : Space φ) : Prop where
  owns : ∀ a, s.layout.Owns a → t.layout.Owns a
  frame : ∀ a, s.layout.Owns a → t.frame (a / g) = s.frame (a / g)

section Pages
variable {g start limit a : Nat}

theorem page_le (g a : Nat) : a / g * g ≤ a := Nat.div_mul_le_self a g

theorem lt_page_add (hg : 0 < g) (a : Nat) : a < a / g * g + g := Nat.lt_div_mul_add hg

theorem mem_passed (hg : 0 < g) (hstart : start ≤ a) (hlimit : a + g ≤ limit) :
    a / g ∈ passed g start limit := by
  have hpage := page_le g a
  have hmod := Nat.mod_lt start hg
  refine ⟨Nat.div_le_div_right hstart, ?_⟩
  omega

theorem not_passed_before (hg : 0 < g) (h : a + g ≤ start) : a / g ∉ passed g start limit := by
  rintro ⟨hle, -⟩
  have hnext : a / g + 1 ≤ start / g := by
    rw [← Nat.add_div_right a hg]
    exact Nat.div_le_div_right h
  omega

theorem not_passed_behind (hg : 0 < g) (h : limit + g ≤ a) : a / g ∉ passed g start limit := by
  rintro ⟨-, hlt⟩
  have hpage := lt_page_add hg a
  omega

end Pages

section Steps
variable {φ : Type} {g : Nat} {s t u : Space φ} {req : Request}

theorem Kept.refl (g : Nat) (s : Space φ) : Kept g s s := ⟨fun _ h => h, fun _ _ => rfl⟩

theorem Kept.trans (h : Kept g s t) (h' : Kept g t u) : Kept g s u :=
  ⟨fun a ha => h'.owns a (h.owns a ha), fun a ha => (h'.frame a (h.owns a ha)).trans (h.frame a ha)⟩

/-- The pages that have a frame keep it, so those of the regions do. -/
theorem Space.Sound.growHeap (h : s.Sound g) (hg : 0 < g) {brk : Nat} {frame : Nat → Option φ}
    (hle : s.layout.brk ≤ brk)
    (hhit : ∀ p ∈ passed g s.layout.brk (brk + g), frame p ≠ none)
    (hkept : ∀ p, s.frame p ≠ none → frame p = s.frame p) :
    Space.Sound g ⟨s.layout.growHeap brk, frame⟩ ∧ Kept g s ⟨s.layout.growHeap brk, frame⟩ := by
  have hframe : ∀ a, s.layout.Owns a → frame (a / g) = s.frame (a / g) :=
    fun a ha => hkept _ (h.backed a ha)
  have howned : ∀ a, s.layout.Owns a → frame (a / g) ≠ none := by
    intro a ha
    rw [hframe a ha]
    exact h.backed a ha
  refine ⟨⟨Nat.le_trans h.heap_le hle, h.base_le, ?_, h.behind, h.apart⟩, ?_, hframe⟩
  · rintro a (⟨hlo, hhi⟩ | hr)
    · by_cases hold : a < s.layout.brk
      · exact howned a (Or.inl ⟨hlo, hold⟩)
      · have hhi' : a < brk := hhi
        exact hhit _ (mem_passed hg (Nat.not_lt.mp hold) (by omega))
    · exact howned a (Or.inr hr)
  · rintro a (⟨hlo, hhi⟩ | hr)
    · exact Or.inl ⟨hlo, Nat.lt_of_lt_of_le hhi hle⟩
    · exact Or.inr hr

/-- No page that was given out is passed: the page behind the last region is what the loop
begins in, and the heap is two pages away. -/
theorem Space.Sound.not_passed (h : s.Sound g) (hg : 0 < g) {length : Nat}
    (hapart : (s.layout.addRegion g length).Apart g) {a : Nat} (ha : s.layout.Owns a) :
    a / g ∉ passed g s.layout.next (s.layout.next + length + g + g) := by
  have hbase := h.base_le
  rcases ha with ⟨hlo, hhi⟩ | ⟨r, hr, hin⟩
  · have hcase : s.layout.brk + 2 * g ≤ s.layout.base ∨
        s.layout.next + length + g + 2 * g ≤ s.layout.heap := hapart
    rcases hcase with hbelow | habove
    · exact not_passed_before hg (by omega)
    · exact not_passed_behind hg (by omega)
  · have hbehind := h.behind r hr
    have hlt := hin.2
    exact not_passed_before hg (by omega)

theorem Space.Sound.addRegion (h : s.Sound g) (hg : 0 < g) {length : Nat}
    {frame : Nat → Option φ} (hapart : (s.layout.addRegion g length).Apart g)
    (hhit : ∀ p ∈ passed g s.layout.next (s.layout.next + length + g + g), frame p ≠ none)
    (hkept : ∀ p, p ∉ passed g s.layout.next (s.layout.next + length + g + g) →
      frame p = s.frame p) :
    Space.Sound g ⟨s.layout.addRegion g length, frame⟩ ∧
      Kept g s ⟨s.layout.addRegion g length, frame⟩ := by
  have hframe : ∀ a, s.layout.Owns a → frame (a / g) = s.frame (a / g) :=
    fun a ha => hkept _ (h.not_passed hg hapart ha)
  have howned : ∀ a, s.layout.Owns a → frame (a / g) ≠ none := by
    intro a ha
    rw [hframe a ha]
    exact h.backed a ha
  have hregions : ∀ r, r ∈ (s.layout.addRegion g length).regions ↔
      r ∈ s.layout.regions ∨ r = (s.layout.next, length) := by
    intro r
    simp [Layout.addRegion]
  have hnext : (s.layout.addRegion g length).next = s.layout.next + length + g := rfl
  refine ⟨⟨h.heap_le, ?_, ?_, ?_, ?_⟩, ?_, hframe⟩
  · have hbase := h.base_le
    change s.layout.base ≤ s.layout.next + length + g
    omega
  · rintro a (hheap | ⟨r, hr, hin⟩)
    · exact howned a (Or.inl hheap)
    · rcases (hregions r).mp hr with hold | rfl
      · exact howned a (Or.inr ⟨r, hold, hin⟩)
      · obtain ⟨hlo, hhi⟩ := hin
        exact hhit _ (mem_passed hg hlo (by dsimp only at hhi; omega))
  · intro r hr
    dsimp only
    rw [hnext]
    rcases (hregions r).mp hr with hold | rfl
    · have hbehind := h.behind r hold
      omega
    · exact Nat.le_refl _
  · refine List.pairwise_append.mpr ⟨h.apart, List.pairwise_singleton _ _, ?_⟩
    intro r hr r' hr'
    rw [List.mem_singleton.mp hr']
    have hbehind := h.behind r hr
    dsimp only
    omega
  · rintro a (hheap | ⟨r, hr, hin⟩)
    · exact Or.inl hheap
    · exact Or.inr ⟨r, (hregions r).mpr (Or.inl hr), hin⟩

theorem Space.Sound.step (h : s.Sound g) (hg : 0 < g) (hs : Step g s req t) :
    t.Sound g ∧ Kept g s t := by
  cases hs with
  | heap brk frame hle hhit hkept => exact h.growHeap hg hle hhit hkept
  | region length frame hapart hhit hkept => exact h.addRegion hg hapart hhit hkept

theorem Space.Sound.run (h : s.Sound g) (hg : 0 < g) {reqs : List Request}
    (hrun : Run (Step g) s reqs t) : t.Sound g ∧ Kept g s t := by
  induction hrun with
  | nil => exact ⟨h, .refl g s⟩
  | snoc _ hstep ih =>
    obtain ⟨hsound, hkept⟩ := ih
    obtain ⟨hsound', hkept'⟩ := hsound.step hg hstep
    exact ⟨hsound', hkept.trans hkept'⟩

end Steps

end Areas
