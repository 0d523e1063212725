/-
**The dead bytes of a page.**

`spaceCheck` collects the fragments of a page only if `frag_size` is more than 64.  The page may have more dead
bytes than that: `frag_size` is one byte, and the cells that a split takes from a leaf may have any size.
-/

import BackendProgramming.BPlusTreeShape

set_option autoImplicit false

namespace SqliteDemo

open SortedEntries Option

theorem collect_dead {node : Node} (htrim : Trim node)
    (hpage : (∃ es, LeafHolds node es ∧ Sorted es) ∨ ∃ es, IntHolds node es ∧ Sorted es) (strict : Bool) :
    ∃ clean, collect strict node = .ok clean ∧ (deadBytes clean ≤ 64 ↔ deadBytes clean < 256) := by
  rcases hpage with ⟨es, hes, hsorted⟩ | ⟨es, hes, hsorted⟩
  · obtain ⟨clean, hcollect, -, -, hfrag, hwaste⟩ := collect_leaf hes hsorted strict
    have hdead := hwaste (htrim.leaf hes.leaf)
    rw [LeafWaste] at hdead
    exact ⟨clean, hcollect, by omega⟩
  · obtain ⟨clean, hcollect, -, -, hwaste⟩ := collect_inner hes hsorted strict
    obtain ⟨hdead, hfrag⟩ := hwaste 144 (htrim.inner hes.inner)
    exact ⟨clean, hcollect, by omega⟩

end SqliteDemo
