import CodeShape.Proofs.Search
import Mathlib.Data.List.Basic

/-! Results in the order of the choices that lead to them. A search with backtracking makes one choice
after the other and goes back to the last one that has an alternative left. So it comes by its
solutions in the lexicographic order of the choices, and it stops at the least one that is taken. -/
namespace CodeShape

/-- The results are those that some choices lead to, once for each way of choosing, in the
lexicographic order of the choices. Each choice is the number of the alternative that is taken. -/
def Enumerates {α : Type} (results : List α) (Leads : List Nat → α → Prop) : Prop :=
  ∃ reached : List (List Nat × α), reached.map Prod.snd = results ∧
    reached.Pairwise (fun r r' => r.1 < r'.1) ∧
    ∀ choices a, (choices, a) ∈ reached ↔ Leads choices a

namespace Enumerates

variable {α β : Type} {results : List α} {Leads Leads' : List Nat → α → Prop}

theorem congr (h : Enumerates results Leads)
    (hLeads : ∀ choices a, Leads choices a ↔ Leads' choices a) : Enumerates results Leads' := by
  obtain ⟨reached, hResults, hSorted, hMem⟩ := h
  exact ⟨reached, hResults, hSorted, fun choices a => (hMem choices a).trans (hLeads choices a)⟩

theorem mem_iff (h : Enumerates results Leads) {a : α} : a ∈ results ↔ ∃ choices, Leads choices a := by
  obtain ⟨reached, rfl, -, hMem⟩ := h
  simp [← hMem]

theorem nil : Enumerates ([] : List α) fun _ _ => False :=
  ⟨[], rfl, .nil, fun _ _ => ⟨nofun, nofun⟩⟩

/-- No choice, one result. -/
theorem one (a : α) : Enumerates [a] fun choices b => choices = [] ∧ b = a := by
  refine ⟨[([], a)], rfl, List.pairwise_singleton _ _, fun choices b => ?_⟩
  rw [List.mem_singleton, Prod.mk.injEq]

/-- A choice without an alternative. -/
theorem numbered (h : Enumerates results Leads) (n : Nat) :
    Enumerates results fun choices a => ∃ rest, Leads rest a ∧ choices = n :: rest := by
  obtain ⟨reached, rfl, hSorted, hMem⟩ := h
  refine ⟨reached.map fun r => (n :: r.1, r.2), by simp [Function.comp_def], ?_, fun choices a => ?_⟩
  · rw [List.pairwise_map]
    exact hSorted.imp fun hLess => List.cons_lt_cons_iff.2 (.inr ⟨rfl, hLess⟩)
  · simp only [← hMem, List.mem_map, Prod.exists, Prod.mk.injEq]
    constructor
    · rintro ⟨rest, b, hb, rfl, rfl⟩
      exact ⟨rest, hb, rfl⟩
    · rintro ⟨rest, ha, rfl⟩
      exact ⟨rest, a, ha, rfl, rfl⟩

/-- First one of several alternatives is chosen, then the choices are made that it leaves. -/
theorem flatMap {f : β → List α} {LeadsFrom : β → List Nat → α → Prop}
    (h : ∀ x, Enumerates (f x) (LeadsFrom x)) (alternatives : List β) :
    Enumerates (alternatives.flatMap f) fun choices a =>
      ∃ i x rest, alternatives[i]? = some x ∧ LeadsFrom x rest a ∧ choices = i :: rest := by
  have hNumbered : ∀ entry : β × Nat, Enumerates (f entry.1) fun choices a =>
      ∃ rest, LeadsFrom entry.1 rest a ∧ choices = entry.2 :: rest :=
    fun entry => (h entry.1).numbered entry.2
  choose reached hResults hSorted hMem using hNumbered
  refine ⟨alternatives.zipIdx.flatMap reached, ?_, ?_, fun choices a => ?_⟩
  · rw [List.map_flatMap]
    simp only [hResults]
    rw [← List.flatMap_map (f := Prod.fst), List.zipIdx_map_fst]
  · rw [List.pairwise_flatMap]
    refine ⟨fun entry _ => hSorted entry, ?_⟩
    have hNumbers : (alternatives.zipIdx.map Prod.snd).Pairwise (· < ·) := by
      rw [List.zipIdx_map_snd]
      exact List.pairwise_lt_range'
    refine (List.pairwise_map.1 hNumbers).imp fun {entry entry'} hLess r hr r' hr' => ?_
    obtain ⟨rest, -, hFirst⟩ := (hMem entry r.1 r.2).1 hr
    obtain ⟨rest', -, hSecond⟩ := (hMem entry' r'.1 r'.2).1 hr'
    rw [hFirst, hSecond]
    exact List.cons_lt_cons_iff.2 (.inl hLess)
  · simp only [List.mem_flatMap, hMem, Prod.exists, List.mem_zipIdx_iff_getElem?]
    constructor
    · rintro ⟨x, i, hx, rest, hRest, rfl⟩
      exact ⟨i, x, rest, hx, hRest, rfl⟩
    · rintro ⟨i, x, rest, hx, hRest, rfl⟩
      exact ⟨x, i, hx, rest, hRest, rfl⟩

/-- Going on from the only alternative, if there is any. -/
theorem ofAtMostOne {f : β → List α} {LeadsFrom : β → List Nat → α → Prop}
    (h : ∀ x, Enumerates (f x) (LeadsFrom x)) {alternatives : List β}
    (hOne : alternatives.length ≤ 1) :
    Enumerates (alternatives.flatMap f) fun choices a =>
      ∃ x ∈ alternatives, LeadsFrom x choices a := by
  match alternatives, hOne with
  | [], _ => exact nil.congr (by simp)
  | [x], _ => simpa using h x

/-- The first acceptable result is the one that the least choices lead to. -/
theorem find?_eq_some_iff (h : Enumerates results Leads) (accept : α → Bool) (a : α) :
    results.find? accept = some a ↔ accept a = true ∧ ∃ choices, Leads choices a ∧
      ∀ choices' a', Leads choices' a' → accept a' = true → ¬ choices' < choices := by
  obtain ⟨reached, rfl, hSorted, hMem⟩ := h
  simp only [← hMem]
  clear hMem
  induction reached with
  | nil => simp
  | cons r reached ih =>
      obtain ⟨first, b⟩ := r
      obtain ⟨hLeast, hRest⟩ := List.pairwise_cons.1 hSorted
      rw [List.map_cons, List.find?_cons]
      cases hAccept : accept b with
      | true =>
          constructor
          · intro hFound
            obtain rfl := Option.some.inj hFound
            refine ⟨hAccept, first, List.mem_cons_self, fun choices' a' hMem _ => ?_⟩
            rcases List.mem_cons.1 hMem with hSame | hLater
            · cases hSame
              exact List.lt_irrefl _
            · exact List.lt_asymm (hLeast _ hLater)
          · rintro ⟨-, choices, hMem, hNone⟩
            rcases List.mem_cons.1 hMem with hSame | hLater
            · exact congrArg some (congrArg Prod.snd hSame).symm
            · exact absurd (hLeast _ hLater) (hNone first b List.mem_cons_self hAccept)
      | false =>
          have hOther : ∀ {choices a}, accept a = true →
              ((choices, a) ∈ (first, b) :: reached ↔ (choices, a) ∈ reached) := by
            intro choices a ha
            refine ⟨fun hMem => (List.mem_cons.1 hMem).resolve_left fun hSame => ?_,
              List.mem_cons_of_mem _⟩
            cases hSame
            exact absurd ha (by rw [hAccept]; exact Bool.false_ne_true)
          refine (ih hRest).trans (and_congr_right fun ha => exists_congr fun choices => ?_)
          refine and_congr (hOther ha).symm (forall_congr' fun choices' => forall_congr' fun a' => ?_)
          exact ⟨fun hNone hMem ha' => hNone ((hOther ha').1 hMem) ha',
            fun hNone hMem ha' => hNone ((hOther ha').2 hMem) ha'⟩

end Enumerates

namespace Search

variable {ε α : Type}

/-- The search comes by what choices lead to in the lexicographic order of the choices, and whatever
turns down some of it, it stops at the end of the least choices that are not turned down. -/
structure InOrderOf (s : Search ε α) (Leads : List Nat → α → Prop) : Prop where
  enumerates : Enumerates s.solutions Leads
  stops : ∀ accept a, (s.stopAt accept).1 = some a ↔ accept a = true ∧ ∃ choices, Leads choices a ∧
    ∀ choices' a', Leads choices' a' → accept a' = true → ¬ choices' < choices

theorem inOrderOf {s : Search ε α} {Leads : List Nat → α → Prop}
    (h : Enumerates s.solutions Leads) : s.InOrderOf Leads := by
  refine ⟨h, fun accept a => ?_⟩
  rw [stopAt_fst]
  exact h.find?_eq_some_iff accept a

end Search

end CodeShape
