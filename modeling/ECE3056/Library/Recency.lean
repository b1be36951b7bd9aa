import Mathlib.Data.List.Basic
import Mathlib.Data.List.Nodup
import Mathlib.Tactic
import ECE3056.Library.History

/-!
# Recency stacks and write-back LRU sets

The most-recent-first list of distinct items of a history, and the bounded
write-back set that keeps the first `ways` of them. Nothing here names a cache
geometry: the items are arbitrary, a history is a list of items, oldest first,
and a write history also says which touches were writes.
-/
namespace ECE3056.Recency

open History (concat_eq_append_cons)

variable {α : Type*} [DecidableEq α]

/-- Move `p` to the front of a most-recent-first stack. -/
def touch (p : α) (stack : List α) : List α := p :: stack.erase p

/-- The distinct items of a history, most recently touched first. -/
def recency (history : List α) : List α := history.foldl (fun stack p => touch p stack) []

@[simp] theorem recency_nil : recency ([] : List α) = [] := rfl

@[simp] theorem recency_concat (history : List α) (p : α) :
    recency (history ++ [p]) = touch p (recency history) := by
  simp [recency]

theorem touch_nodup {p : α} {stack : List α} (h : stack.Nodup) : (touch p stack).Nodup :=
  List.nodup_cons.mpr ⟨h.not_mem_erase, h.erase p⟩

theorem recency_nodup (history : List α) : (recency history).Nodup := by
  induction history using List.reverseRecOn with
  | nil => simp
  | append_singleton history p ih =>
    rw [recency_concat]
    exact touch_nodup ih

/-- Erasing a visible item pulls the next hidden one into the window. -/
theorem take_erase_of_mem {p : α} {stack : List α} {k : Nat} (h : p ∈ stack.take k) :
    (stack.take k).erase p = (stack.erase p).take (k - 1) := by
  induction stack generalizing k with
  | nil => simp at h
  | cons x stack ih =>
    cases k with
    | zero => simp at h
    | succ k =>
      by_cases hx : x = p
      · simp [hx]
      · have hp : p ∈ stack.take k := by
          rw [List.take_succ_cons, List.mem_cons] at h
          exact h.resolve_left (fun e => hx e.symm)
        have hk : 0 < k := by
          rcases Nat.eq_zero_or_pos k with rfl | hk
          · simp at hp
          · exact hk
        obtain ⟨k, rfl⟩ := Nat.exists_eq_succ_of_ne_zero hk.ne'
        have he : (x == p) = false := by simp [hx]
        rw [List.take_succ_cons, List.erase_cons, List.erase_cons, he]
        simp [ih hp]

/-- Erasing a hidden item does not change what is visible above it. -/
theorem take_erase_of_not_mem {p : α} {stack : List α} {k : Nat} (h : p ∉ stack.take k) :
    (stack.erase p).take (k - 1) = stack.take (k - 1) := by
  induction stack generalizing k with
  | nil => simp
  | cons x stack ih =>
    cases k with
    | zero => simp
    | succ k =>
      rw [List.take_succ_cons, List.mem_cons, not_or] at h
      have he : (x == p) = false := by simp [Ne.symm h.1]
      rw [List.erase_cons, he]
      cases k with
      | zero => simp
      | succ k => simpa using ih h.2

theorem take_touch_of_mem {p : α} {stack : List α} {k : Nat} (h : p ∈ stack.take k) :
    (touch p stack).take k = touch p (stack.take k) := by
  obtain ⟨k, rfl⟩ : ∃ j, k = j + 1 := by
    cases k with
    | zero => simp at h
    | succ j => exact ⟨j, rfl⟩
  rw [touch, touch, List.take_succ_cons, take_erase_of_mem h]
  rfl

theorem take_touch_of_not_mem {p : α} {stack : List α} {k : Nat} (hk : 0 < k)
    (h : p ∉ stack.take k) : (touch p stack).take k = p :: stack.take (k - 1) := by
  obtain ⟨k, rfl⟩ := Nat.exists_eq_succ_of_ne_zero hk.ne'
  rw [touch, List.take_succ_cons, ← take_erase_of_not_mem h]
  rfl

omit [DecidableEq α] in
/-- A larger window sees everything a smaller one does. -/
theorem mem_take_mono {p : α} {stack : List α} {j k : Nat} (hjk : j ≤ k)
    (h : p ∈ stack.take j) : p ∈ stack.take k := by
  rw [← Nat.min_eq_left hjk, ← List.take_take] at h
  exact List.mem_of_mem_take h

/-! ## Bounded write-back sets -/

/-- Items with a dirty flag, most recently used first. -/
abbrev Entries (α : Type*) := List (α × Bool)

def tags (entries : Entries α) : List α := entries.map Prod.fst

omit [DecidableEq α] in
theorem tags_eraseIdx (entries : Entries α) (i : Nat) :
    tags (entries.eraseIdx i) = (tags entries).eraseIdx i :=
  (List.eraseIdx_map Prod.fst entries i).symm

/-- The position of `t`, or the length of the list when `t` is absent. -/
def position (entries : Entries α) (t : α) : Nat := (tags entries).idxOf t

/-- A touch of `t`: a hit moves the entry to the front and keeps its dirty flag,
a miss puts a fresh entry there and drops whatever stands last in a full set. -/
def access (ways : Nat) (entries : Entries α) (t : α) (write : Bool) : Entries α :=
  match entries[position entries t]? with
  | some e => (t, e.2 || write) :: entries.eraseIdx (position entries t)
  | none => (t, write) :: entries.eraseIdx (ways - 1)

/-- The entry that a touch of `t` pushes out of a full set. -/
def evicted (ways : Nat) (entries : Entries α) (t : α) : Option (α × Bool) :=
  if t ∈ tags entries then none else entries[ways - 1]?

def run (ways : Nat) (history : List (α × Bool)) : Entries α :=
  history.foldl (fun entries e => access ways entries e.1 e.2) []

@[simp] theorem run_nil (ways : Nat) : run ways ([] : List (α × Bool)) = [] := rfl

@[simp] theorem run_concat (ways : Nat) (history : List (α × Bool)) (e : α × Bool) :
    run ways (history ++ [e]) = access ways (run ways history) e.1 e.2 := by
  simp [run]

theorem getElem?_position {entries : Entries α} {t : α} (h : t ∈ tags entries) :
    ∃ d, entries[position entries t]? = some (t, d) := by
  have ht : (tags entries)[position entries t]? = some t := List.getElem?_idxOf h
  rw [tags, List.getElem?_map, Option.map_eq_some_iff] at ht
  obtain ⟨⟨u, d⟩, he, rfl⟩ := ht
  exact ⟨d, he⟩

theorem getElem?_position_none {entries : Entries α} {t : α} (h : t ∉ tags entries) :
    entries[position entries t]? = none := by
  rw [List.getElem?_eq_none_iff, position, List.idxOf_eq_length h]
  simp [tags]

theorem access_hit {ways : Nat} {entries : Entries α} {t : α} {d : Bool}
    (h : entries[position entries t]? = some (t, d)) (write : Bool) :
    access ways entries t write = (t, d || write) :: entries.eraseIdx (position entries t) := by
  simp only [access, h]

theorem access_miss {ways : Nat} {entries : Entries α} {t : α} (h : t ∉ tags entries)
    (write : Bool) : access ways entries t write = (t, write) :: entries.eraseIdx (ways - 1) := by
  simp only [access, getElem?_position_none h]

theorem tags_access_hit {ways : Nat} {entries : Entries α} {t : α} (h : t ∈ tags entries)
    (write : Bool) : tags (access ways entries t write) = touch t (tags entries) := by
  obtain ⟨d, he⟩ := getElem?_position h
  rw [access_hit he, touch, List.erase_eq_eraseIdx_of_idxOf rfl]
  exact congrArg (t :: ·) (tags_eraseIdx entries _)

theorem tags_access_miss {ways : Nat} {entries : Entries α} {t : α} (h : t ∉ tags entries)
    (write : Bool) :
    tags (access ways entries t write) = t :: (tags entries).eraseIdx (ways - 1) := by
  rw [access_miss h]
  exact congrArg (t :: ·) (tags_eraseIdx entries _)

/-- The set holds exactly the last `ways` distinct items, in recency order. -/
theorem tags_run {ways : Nat} (hw : 0 < ways) (history : List (α × Bool)) :
    tags (run ways history) = (recency (history.map Prod.fst)).take ways := by
  induction history using List.reverseRecOn with
  | nil => simp [tags]
  | append_singleton history e ih =>
    obtain ⟨t, w⟩ := e
    rw [run_concat, List.map_append, List.map_singleton, recency_concat]
    by_cases h : t ∈ tags (run ways history)
    · rw [tags_access_hit h, ih]
      exact (take_touch_of_mem (ih ▸ h)).symm
    · have hl : (tags (run ways history)).length ≤ ways := by
        rw [ih]; exact List.length_take_le _ _
      rw [tags_access_miss h, take_touch_of_not_mem hw (ih ▸ h), ih]
      congr 1
      rw [List.eraseIdx_eq_take_drop_succ, Nat.sub_add_cancel hw, List.drop_take_self,
        List.append_nil, List.take_take, Nat.min_eq_left (Nat.sub_le _ _)]

theorem tags_run_nodup {ways : Nat} (hw : 0 < ways) (history : List (α × Bool)) :
    (tags (run ways history)).Nodup := by
  rw [tags_run hw]
  exact (recency_nodup _).sublist (List.take_sublist _ _)

/-- Only a full set loses an item, and it loses the least recently used one. -/
theorem lost_by_access {ways : Nat} {entries : Entries α} (hlen : entries.length ≤ ways) {t u : α}
    {write : Bool} (ht : t ∈ tags entries) (hlost : t ∉ tags (access ways entries u write)) :
    entries.length = ways ∧ (tags entries).getLast? = some t := by
  have hu : u ∉ tags entries := by
    intro hu
    rw [tags_access_hit hu, touch, List.mem_cons, not_or] at hlost
    exact hlost.2 ((List.mem_erase_of_ne hlost.1).mpr ht)
  rw [tags_access_miss hu, List.mem_cons, not_or, List.mem_eraseIdx_iff_getElem?] at hlost
  obtain ⟨k, hk, rfl⟩ := List.getElem_of_mem ht
  have hkw : k = ways - 1 := by
    by_contra hne
    exact hlost.2 ⟨k, hne, List.getElem?_eq_getElem hk⟩
  have hlen' : (tags entries).length = entries.length := List.length_map _
  have hfull : entries.length = ways := by omega
  refine ⟨hfull, ?_⟩
  rw [List.getLast?_eq_getElem?, hlen', hfull, ← hkw, List.getElem?_eq_getElem hk]

theorem evicted_mem {ways : Nat} {entries : Entries α} {u : α} {e : α × Bool}
    (h : evicted ways entries u = some e) : e ∈ entries := by
  unfold evicted at h
  split_ifs at h with hu
  exact List.mem_of_getElem? h

/-- A dirty entry stays dirty until it is the one evicted. -/
theorem dirty_mem_access {ways : Nat} {entries : Entries α} (hnodup : (tags entries).Nodup)
    {t u : α} (h : (t, true) ∈ entries) (hkeep : evicted ways entries u ≠ some (t, true))
    (write : Bool) : (t, true) ∈ access ways entries u write := by
  obtain ⟨k, hk⟩ := List.mem_iff_getElem?.mp h
  by_cases hu : u ∈ tags entries
  · obtain ⟨d, he⟩ := getElem?_position hu
    rw [access_hit he]
    by_cases htu : t = u
    · subst htu
      have hpos : position entries t = k := by
        have ht : (tags entries)[k]? = some t := by rw [tags, List.getElem?_map, hk]; rfl
        obtain ⟨hlt, hget⟩ := List.getElem?_eq_some_iff.mp ht
        rw [position, ← hget]
        exact hnodup.idxOf_getElem k hlt
      rw [hpos, hk] at he
      obtain rfl : true = d := (Prod.mk.inj (Option.some.inj he)).2
      simp
    · refine List.mem_cons_of_mem _ (List.mem_eraseIdx_iff_getElem?.mpr ⟨k, ?_, hk⟩)
      rintro rfl
      rw [hk] at he
      exact htu (Prod.mk.inj (Option.some.inj he)).1
  · rw [access_miss hu]
    refine List.mem_cons_of_mem _ (List.mem_eraseIdx_iff_getElem?.mpr ⟨k, ?_, hk⟩)
    rintro rfl
    exact hkeep (by rw [evicted, if_neg hu, hk])

/-- A touch of another item makes nothing dirty. -/
theorem mem_of_dirty_mem_access {ways : Nat} {entries : Entries α} {t u : α} {write : Bool}
    (htu : t ≠ u) (h : (t, true) ∈ access ways entries u write) : (t, true) ∈ entries := by
  have hhead : ∀ d, (t, true) ≠ (u, d) := fun d he => htu (Prod.mk.inj he).1
  by_cases hu : u ∈ tags entries
  · obtain ⟨d, he⟩ := getElem?_position hu
    rw [access_hit he] at h
    exact List.mem_of_mem_eraseIdx ((List.mem_cons.mp h).resolve_left (hhead _))
  · rw [access_miss hu] at h
    exact List.mem_of_mem_eraseIdx ((List.mem_cons.mp h).resolve_left (hhead _))

/-! ## What a dirty flag remembers -/

/-- Some write touched `t`, and every later touch of `t` found it still in the window:
the write hit or filled `t` no earlier than its last fill. -/
def DirtySince (ways : Nat) (history : List (α × Bool)) (t : α) : Prop :=
  ∃ before after, history = before ++ (t, true) :: after ∧
    ∀ b a w, after = b ++ (t, w) :: a →
      t ∈ (recency ((before ++ (t, true) :: b).map Prod.fst)).take ways

theorem dirtySince_concat_of_ne {ways : Nat} {history : List (α × Bool)} {t u : α} (w : Bool)
    (hne : u ≠ t) : DirtySince ways (history ++ [(u, w)]) t ↔ DirtySince ways history t := by
  constructor
  · rintro ⟨before, after, h, hlater⟩
    rcases concat_eq_append_cons h with ⟨-, -, he⟩ | ⟨after, rfl, rfl⟩
    · exact absurd (Prod.mk.inj he).1 hne
    · refine ⟨before, after, rfl, fun b a v hb => hlater b (a ++ [(u, w)]) v ?_⟩
      rw [hb]; simp
  · rintro ⟨before, after, rfl, hlater⟩
    refine ⟨before, after ++ [(u, w)], by simp, fun b a v hb => ?_⟩
    rcases concat_eq_append_cons hb with ⟨-, -, he⟩ | ⟨a, rfl, he⟩
    · exact absurd (Prod.mk.inj he).1 hne
    · exact hlater b a v he

theorem dirtySince_concat_self {ways : Nat} {history : List (α × Bool)} {t : α} {w : Bool} :
    DirtySince ways (history ++ [(t, w)]) t ↔
      w = true ∨ (t ∈ (recency (history.map Prod.fst)).take ways ∧ DirtySince ways history t) := by
  constructor
  · rintro ⟨before, after, h, hlater⟩
    rcases concat_eq_append_cons h with ⟨-, -, he⟩ | ⟨after, rfl, rfl⟩
    · exact Or.inl (Prod.mk.inj he).2
    · refine Or.inr ⟨hlater after [] w rfl, before, after, rfl, fun b a v hb => ?_⟩
      exact hlater b (a ++ [(t, w)]) v (by rw [hb]; simp)
  · rintro (rfl | ⟨hmem, before, after, rfl, hlater⟩)
    · exact ⟨history, [], rfl, fun b a v hb => by simp at hb⟩
    · refine ⟨before, after ++ [(t, w)], by simp, fun b a v hb => ?_⟩
      rcases concat_eq_append_cons hb with ⟨-, rfl, -⟩ | ⟨a, rfl, he⟩
      · exact hmem
      · exact hlater b a v he

/-- The dirty flag of a present item says whether it was written since its last fill. -/
theorem dirty_run {ways : Nat} (hw : 0 < ways) (history : List (α × Bool)) {t : α} {d : Bool}
    (h : (t, d) ∈ run ways history) : d = true ↔ DirtySince ways history t := by
  induction history using List.reverseRecOn generalizing t d with
  | nil => simp at h
  | append_singleton history e ih =>
    obtain ⟨u, w⟩ := e
    have hnodup := tags_run_nodup hw (history ++ [(u, w)])
    rw [run_concat] at h hnodup
    by_cases hu : u ∈ tags (run ways history)
    · obtain ⟨d', he⟩ := getElem?_position hu
      have hold : (u, d') ∈ run ways history := List.mem_of_getElem? he
      rw [access_hit he] at h hnodup
      rcases List.mem_cons.mp h with heq | hmem
      · obtain ⟨rfl, rfl⟩ := Prod.mk.inj heq
        rw [dirtySince_concat_self, ← ih hold, ← tags_run hw]
        simp [hu, or_comm]
      · have hne : u ≠ t := by
          rintro rfl
          exact (List.nodup_cons.mp hnodup).1 (List.mem_map.mpr ⟨_, hmem, rfl⟩)
        rw [dirtySince_concat_of_ne w hne]
        exact ih (List.mem_of_mem_eraseIdx hmem)
    · rw [access_miss hu] at h hnodup
      rcases List.mem_cons.mp h with heq | hmem
      · obtain ⟨rfl, rfl⟩ := Prod.mk.inj heq
        rw [dirtySince_concat_self, ← tags_run hw]
        simp [hu]
      · have hne : u ≠ t := by
          rintro rfl
          exact (List.nodup_cons.mp hnodup).1 (List.mem_map.mpr ⟨_, hmem, rfl⟩)
        rw [dirtySince_concat_of_ne w hne]
        exact ih (List.mem_of_mem_eraseIdx hmem)

end ECE3056.Recency
