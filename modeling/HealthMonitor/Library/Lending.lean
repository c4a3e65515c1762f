import Mathlib.Data.List.Nodup
import Mathlib.Logic.Function.Basic

/-!
# Lending

Values that are fetched once and lent to several consumers. A shelf holds one value at
most, with the consumers that have had it. A fetch empties its shelf, lends the value to
the consumer it was made for, and puts it on the shelf if it is worth keeping; a consumer
that has not had the value on a shelf is lent it while it is young enough.

Whatever the shelves and the order of the loans, a consumer is lent a value once at most,
and a value that is lent from a shelf was fetched under its key: `Sound`.
-/

namespace Lending

variable {κ γ υ : Type*}

/-- A value on a shelf. `origin` is the number of the fetch it comes from. -/
structure Item (κ γ υ : Type*) where
  origin : Nat
  key : κ
  time : Nat
  value : υ
  consumers : List γ

/-- A value that was lent, from a shelf or right after it was fetched. `age` is how old it
has to be for the consumer to do without it. -/
structure Loan (κ γ υ : Type*) where
  origin : Nat
  key : κ
  time : Nat
  age : Nat
  value : υ
  consumer : γ
  kept : Bool

def Item.lent (item : Item κ γ υ) (consumer : γ) (time age : Nat) : Loan κ γ υ where
  origin := item.origin
  key := item.key
  time
  age
  value := item.value
  consumer
  kept := true

/-- A value that was just fetched, as it is put on a shelf. -/
def Loan.shelve (loan : Loan κ γ υ) : Item κ γ υ where
  origin := loan.origin
  key := loan.key
  time := loan.time
  value := loan.value
  consumers := [loan.consumer]

/-- The fetch an item or a loan comes from. -/
structure Fetched (log : List (Loan κ γ υ)) (origin : Nat) (key : κ) (value : υ) (time : Nat)
    (fetch : Loan κ γ υ) : Prop where
  mem : fetch ∈ log
  first : fetch.kept = false
  origin : fetch.origin = origin
  key : fetch.key = key
  value : fetch.value = value
  time : fetch.time = time

theorem Fetched.append {log more : List (Loan κ γ υ)} {origin time : Nat} {key : κ} {value : υ}
    {fetch : Loan κ γ υ} (h : Fetched log origin key value time fetch) :
    Fetched (log ++ more) origin key value time fetch :=
  { h with mem := List.mem_append_left more h.mem }

/-- What the shelves hold and what was lent, `next` being the number of the next fetch. -/
structure Sound (worth : υ → Prop) (shelves : Nat → Option (Item κ γ υ)) (next : Nat)
    (log : List (Loan κ γ υ)) : Prop where
  early : ∀ loan ∈ log, loan.origin < next
  once : (log.map fun loan => (loan.origin, loan.consumer)).Nodup
  distinct : ((log.filter (!·.kept)).map (·.origin)).Nodup
  sourced : ∀ loan ∈ log, loan.kept = true → worth loan.value
    ∧ ∃ time fetch, Fetched log loan.origin loan.key loan.value time fetch
      ∧ loan.time - time < loan.age
  shelved : ∀ i item, shelves i = some item → worth item.value ∧ item.origin < next
    ∧ ∃ fetch, Fetched log item.origin item.key item.value item.time fetch
  noted : ∀ i item, shelves i = some item → ∀ loan ∈ log, loan.origin = item.origin →
    loan.consumer ∈ item.consumers
  apart : ∀ i j item item', shelves i = some item → shelves j = some item' →
    item.origin = item'.origin → i = j

namespace Sound

variable {worth : υ → Prop} {shelves : Nat → Option (Item κ γ υ)} {next : Nat}
  {log : List (Loan κ γ υ)}

theorem start : Sound worth (fun _ => (none : Option (Item κ γ υ))) 0 [] where
  early := by simp
  once := List.nodup_nil
  distinct := List.nodup_nil
  sourced := by simp
  shelved := by simp
  noted := by simp
  apart := by simp

/-- A shelf is emptied. -/
theorem clear (h : Sound worth shelves next log) (i : Nat) :
    Sound worth (Function.update shelves i none) next log := by
  have hheld : ∀ {j item}, Function.update shelves i none j = some item →
      shelves j = some item := by
    intro j item hj
    by_cases hij : j = i
    · rw [hij, Function.update_self] at hj
      cases hj
    · rwa [Function.update_of_ne hij] at hj
  exact ⟨h.early, h.once, h.distinct, h.sourced, fun j item hj => h.shelved j item (hheld hj),
    fun j item hj => h.noted j item (hheld hj),
    fun j k item item' hj hk => h.apart j k item item' (hheld hj) (hheld hk)⟩

/-- A value is fetched for a consumer and not kept. -/
theorem pass (h : Sound worth shelves next log) {loan : Loan κ γ υ}
    (horigin : loan.origin = next) (hkept : loan.kept = false) :
    Sound worth shelves (next + 1) (log ++ [loan]) where
  early := by
    intro d hd
    rcases List.mem_append.mp hd with hd | hd
    · exact Nat.lt_succ_of_lt (h.early d hd)
    · rw [List.mem_singleton.mp hd, horigin]
      exact Nat.lt_succ_self next
  once := by
    rw [List.map_append, List.nodup_append]
    refine ⟨h.once, List.nodup_singleton _, fun a ha b hb => ?_⟩
    obtain ⟨d, hd, rfl⟩ := List.mem_map.mp ha
    rw [List.map_singleton, List.mem_singleton] at hb
    subst hb
    intro heq
    have hlt := h.early d hd
    rw [(Prod.mk.inj heq).1, horigin] at hlt
    exact Nat.lt_irrefl _ hlt
  distinct := by
    rw [List.filter_append, List.map_append, List.nodup_append,
      List.filter_cons_of_pos (by simp [hkept])]
    refine ⟨h.distinct, List.nodup_singleton _, fun a ha b hb => ?_⟩
    obtain ⟨d, hd, rfl⟩ := List.mem_map.mp ha
    have hlt := h.early d (List.mem_of_mem_filter hd)
    simp only [List.filter_nil, List.map_cons, List.map_nil, List.mem_singleton] at hb
    rw [hb, horigin]
    exact Nat.ne_of_lt hlt
  sourced := by
    intro d hd hdkept
    rcases List.mem_append.mp hd with hd | hd
    · obtain ⟨hworth, time, fetch, hfetch, hage⟩ := h.sourced d hd hdkept
      exact ⟨hworth, time, fetch, hfetch.append, hage⟩
    · rw [List.mem_singleton.mp hd, hkept] at hdkept
      cases hdkept
  shelved := by
    intro i item hi
    obtain ⟨hworth, horig, fetch, hfetch⟩ := h.shelved i item hi
    exact ⟨hworth, Nat.lt_succ_of_lt horig, fetch, hfetch.append⟩
  noted := by
    intro i item hi d hd hsame
    rcases List.mem_append.mp hd with hd | hd
    · exact h.noted i item hi d hd hsame
    · have hlt := (h.shelved i item hi).2.1
      rw [← hsame, List.mem_singleton.mp hd, horigin] at hlt
      exact absurd hlt (Nat.lt_irrefl next)
  apart := h.apart

/-- A value that was just fetched is put on a shelf. -/
theorem keep (h : Sound worth shelves next log) {loan : Loan κ γ υ}
    (horigin : loan.origin = next) (hkept : loan.kept = false) (hworth : worth loan.value)
    (i : Nat) :
    Sound worth (Function.update shelves i (some loan.shelve)) (next + 1) (log ++ [loan]) := by
  have hpass := h.pass horigin hkept
  have hold : ∀ {j item}, shelves j = some item → item.origin ≠ next := fun hj heq =>
    Nat.lt_irrefl next (heq ▸ (h.shelved _ _ hj).2.1)
  refine ⟨hpass.early, hpass.once, hpass.distinct, hpass.sourced, fun j item hj => ?_,
    fun j item hj d hd hsame => ?_, fun j k item item' hj hk hsame => ?_⟩
  · by_cases hij : j = i
    · rw [hij, Function.update_self] at hj
      cases hj
      exact ⟨hworth, Nat.lt_succ_of_le (Nat.le_of_eq horigin), loan,
        ⟨List.mem_append_right log (List.mem_singleton_self loan), hkept, rfl, rfl, rfl, rfl⟩⟩
    · rw [Function.update_of_ne hij] at hj
      exact hpass.shelved j item hj
  · by_cases hij : j = i
    · rw [hij, Function.update_self] at hj
      cases hj
      rcases List.mem_append.mp hd with hd | hd
      · have hlt := h.early d hd
        rw [hsame, show loan.shelve.origin = next from horigin] at hlt
        exact absurd hlt (Nat.lt_irrefl next)
      · rw [List.mem_singleton.mp hd]
        exact List.mem_singleton_self _
    · rw [Function.update_of_ne hij] at hj
      exact hpass.noted j item hj d hd hsame
  · by_cases hij : j = i <;> by_cases hik : k = i
    · rw [hij, hik]
    · rw [hij, Function.update_self] at hj
      rw [Function.update_of_ne hik] at hk
      cases hj
      exact absurd (hsame.symm.trans horigin) (hold hk)
    · rw [Function.update_of_ne hij] at hj
      rw [hik, Function.update_self] at hk
      cases hk
      exact absurd (hsame.trans horigin) (hold hj)
    · rw [Function.update_of_ne hij] at hj
      rw [Function.update_of_ne hik] at hk
      exact h.apart j k item item' hj hk hsame

/-- The value on a shelf is lent to a consumer that has not had it. -/
theorem lend (h : Sound worth shelves next log) {i : Nat} {item : Item κ γ υ}
    (hi : shelves i = some item) {consumer : γ} (hnew : consumer ∉ item.consumers)
    {time age : Nat} (hage : time - item.time < age) :
    Sound worth
      (Function.update shelves i (some { item with consumers := consumer :: item.consumers }))
      next
      (log ++ [item.lent consumer time age]) := by
  obtain ⟨hworth, horig, source, hsource⟩ := h.shelved i item hi
  refine ⟨fun d hd => ?_, ?_, ?_, fun d hd hdkept => ?_, fun j held hj => ?_,
    fun j held hj d hd hsame => ?_, fun j k held held' hj hk hsame => ?_⟩
  · rcases List.mem_append.mp hd with hd | hd
    · exact h.early d hd
    · rw [List.mem_singleton.mp hd]
      exact horig
  · rw [List.map_append, List.nodup_append]
    refine ⟨h.once, List.nodup_singleton _, fun a ha b hb => ?_⟩
    obtain ⟨d, hd, rfl⟩ := List.mem_map.mp ha
    rw [List.map_singleton, List.mem_singleton] at hb
    subst hb
    intro heq
    obtain ⟨hsame, hconsumer⟩ := Prod.mk.inj heq
    have hnoted := h.noted i item hi d hd hsame
    rw [hconsumer] at hnoted
    exact hnew hnoted
  · rw [List.filter_append, List.filter_cons_of_neg (by simp [Item.lent]), List.filter_nil,
      List.append_nil]
    exact h.distinct
  · rcases List.mem_append.mp hd with hd | hd
    · obtain ⟨hdworth, fetched, fetch, hfetch, hdage⟩ := h.sourced d hd hdkept
      exact ⟨hdworth, fetched, fetch, hfetch.append, hdage⟩
    · rw [List.mem_singleton.mp hd]
      exact ⟨hworth, item.time, source, hsource.append, hage⟩
  · by_cases hij : j = i
    · rw [hij, Function.update_self] at hj
      cases hj
      exact ⟨hworth, horig, source, hsource.append⟩
    · rw [Function.update_of_ne hij] at hj
      obtain ⟨hhworth, hhorig, fetch, hfetch⟩ := h.shelved j held hj
      exact ⟨hhworth, hhorig, fetch, hfetch.append⟩
  · by_cases hij : j = i
    · rw [hij, Function.update_self] at hj
      cases hj
      rcases List.mem_append.mp hd with hd | hd
      · exact List.mem_cons_of_mem consumer (h.noted i item hi d hd hsame)
      · rw [List.mem_singleton.mp hd]
        exact List.mem_cons_self
    · rw [Function.update_of_ne hij] at hj
      rcases List.mem_append.mp hd with hd | hd
      · exact h.noted j held hj d hd hsame
      · -- The value is on one shelf only.
        rw [List.mem_singleton.mp hd] at hsame
        exact absurd (h.apart j i held item hj hi hsame.symm) hij
  · have hback : ∀ {j held}, Function.update shelves i
          (some { item with consumers := consumer :: item.consumers }) j = some held →
        ∃ old, shelves j = some old ∧ old.origin = held.origin := by
      intro j held hj
      by_cases hij : j = i
      · rw [hij, Function.update_self] at hj
        cases hj
        exact ⟨item, hij ▸ hi, rfl⟩
      · rw [Function.update_of_ne hij] at hj
        exact ⟨held, hj, rfl⟩
    obtain ⟨old, hold, horigin⟩ := hback hj
    obtain ⟨old', hold', horigin'⟩ := hback hk
    exact h.apart j k old old' hold hold' (horigin.trans (hsame.trans horigin'.symm))

end Sound

end Lending
