import Mathlib.Data.List.Chain
import Mathlib.Data.List.Infix

/-!
# Stretch

Stretches of a log: what lies between the last entry that broke something off
and the end. Every entry of a stretch is good, and each is linked to the one
before it. A stretch grows by one entry at a time, or starts again with it.
-/

/-- The last entries of a log, all of them good and each linked to the next. -/
structure Stretch {α : Type*} (good : α → Prop) (link : α → α → Prop) (log since : List α) :
    Prop where
  suffix : since <:+ log
  good : ∀ e ∈ since, good e
  linked : since.IsChain link

namespace Stretch

variable {α : Type*} {good good' : α → Prop} {link : α → α → Prop} {log since : List α} {e : α}

/-- An entry on its own. -/
theorem start (he : good e) : Stretch good link (log ++ [e]) [e] where
  suffix := List.suffix_append log [e]
  good _ ho := List.mem_singleton.mp ho ▸ he
  linked := List.isChain_singleton e

/-- One more entry, linked to the last. -/
theorem extend (h : Stretch good link log since) (he : good e)
    (hlink : ∀ last ∈ since.getLast?, link last e) :
    Stretch good link (log ++ [e]) (since ++ [e]) where
  suffix := by
    obtain ⟨older, rfl⟩ := h.suffix
    exact ⟨older, (List.append_assoc older since [e]).symm⟩
  good o ho := by
    rcases List.mem_append.mp ho with ho | ho
    · exact h.good o ho
    · exact List.mem_singleton.mp ho ▸ he
  linked := by
    refine h.linked.append (List.isChain_singleton e) fun last hlast o ho => ?_
    rw [List.head?_cons, Option.mem_some_iff] at ho
    exact ho ▸ hlink last hlast

/-- In an ordered log, an entry not below the first one of the stretch lies in the
stretch or is level with its first entry. -/
theorem mem_or_level {κ : Type*} [PartialOrder κ] {time : α → κ} {first : α} {rest : List α}
    (h : Stretch good link log (first :: rest))
    (hordered : log.Pairwise fun a b => time a ≤ time b) (he : e ∈ log)
    (hle : time first ≤ time e) : e ∈ first :: rest ∨ time e = time first := by
  obtain ⟨older, rfl⟩ := h.suffix
  rcases List.mem_append.mp he with he | he
  · right
    exact le_antisymm
      ((List.pairwise_append.mp hordered).2.2 e he first List.mem_cons_self) hle
  · exact .inl he

end Stretch
