import Mathlib.Data.List.Nodup
import Mathlib.Data.List.Count

/-!
# AudioEngine.Lib.Table

A relational table with a primary key, as far as single-statement SQL needs it: lookup by key,
`UPDATE … WHERE` with its row count, `INSERT`, and the multi-row
`INSERT … ON CONFLICT (uniq) DO NOTHING`.

The table carries the proof that its keys are distinct, so a lookup has at most one answer and a
row count over one key is 0 or 1. The lemmas say what each statement does to a lookup and to a
count; nothing else in the development looks inside `rows.map`.
-/

namespace Relational

/-- Rows in insertion order, no two with the same primary key. -/
structure Table {α κ : Type} (key : α → κ) where
  rows : List α
  nodup : (rows.map key).Nodup

namespace Table

variable {α κ : Type} {key : α → κ}

def empty : Table key := ⟨[], List.nodup_nil⟩

/-- `UPDATE … SET f WHERE p`. The assignment `f` leaves the primary key alone. -/
def update (t : Table key) (p : α → Bool) (f : α → α) (hf : ∀ r, key (f r) = key r) : Table key :=
  ⟨t.rows.map fun r => if p r then f r else r, by
    have : (t.rows.map fun r => if p r then f r else r).map key = t.rows.map key := by
      rw [List.map_map]
      apply List.map_congr_left
      intro r _
      simp only [Function.comp]
      split
      · exact hf r
      · rfl
    rw [this]; exact t.nodup⟩

/-- How many rows `UPDATE … WHERE p` touches. -/
def rowcount (t : Table key) (p : α → Bool) : Nat := t.rows.countP p

variable [DecidableEq κ]

def get (t : Table key) (k : κ) : Option α := t.rows.find? fun r => key r = k

/-- Plain `INSERT`; `none` is a primary-key violation. -/
def insert? (t : Table key) (r : α) : Option (Table key) :=
  if h : key r ∈ t.rows.map key then none
  else some ⟨t.rows ++ [r], by
    rw [List.map_append, List.map_singleton]
    exact t.nodup.append (List.nodup_singleton _) (by simpa using h)⟩

/-- Multi-row `INSERT … ON CONFLICT (uniq) DO NOTHING`: rows whose `uniq` value is taken are
skipped; `none` is a primary-key violation, which the conflict target does not cover. -/
def insertIgnore {ι : Type} [DecidableEq ι] (uniq : α → ι) (t : Table key) :
    List α → Option (Table key)
  | [] => some t
  | r :: rs =>
    if uniq r ∈ t.rows.map uniq then insertIgnore uniq t rs
    else
      match t.insert? r with
      | none => none
      | some t' => insertIgnore uniq t' rs

omit [DecidableEq κ] in
theorem ext_rows {t t' : Table key} (h : t.rows = t'.rows) : t = t' := by
  cases t; cases t'; cases h; rfl

/-! ## Lookups -/

omit [DecidableEq κ] in
theorem eq_of_key {t : Table key} {r r' : α} (h : r ∈ t.rows) (h' : r' ∈ t.rows)
    (hk : key r = key r') : r = r' :=
  List.inj_on_of_nodup_map t.nodup h h' hk

theorem get_eq_some {t : Table key} {k : κ} {r : α} :
    t.get k = some r ↔ r ∈ t.rows ∧ key r = k := by
  constructor
  · intro h
    exact ⟨List.mem_of_find?_eq_some h, by simpa using List.find?_some h⟩
  · rintro ⟨hm, rfl⟩
    cases hg : t.get (key r) with
    | none =>
      have := List.find?_eq_none.mp hg r hm
      simp at this
    | some r' =>
      have hk : key r' = key r := by simpa using List.find?_some hg
      rw [eq_of_key (List.mem_of_find?_eq_some hg) hm hk]

theorem get_eq_none {t : Table key} {k : κ} : t.get k = none ↔ ∀ r ∈ t.rows, key r ≠ k := by
  simp [get, List.find?_eq_none]

theorem get_of_mem {t : Table key} {r : α} (h : r ∈ t.rows) : t.get (key r) = some r :=
  get_eq_some.mpr ⟨h, rfl⟩

omit [DecidableEq κ] in
theorem mem_update {t : Table key} {p : α → Bool} {f : α → α} {hf : ∀ r, key (f r) = key r}
    {r : α} : r ∈ (t.update p f hf).rows ↔ ∃ r₀ ∈ t.rows, (if p r₀ then f r₀ else r₀) = r := by
  simp [update]

theorem get_update (t : Table key) (p : α → Bool) (f : α → α) (hf : ∀ r, key (f r) = key r)
    (k : κ) : (t.update p f hf).get k = (t.get k).map fun r => if p r then f r else r := by
  have hkey : ∀ r, key (if p r then f r else r) = key r := by
    intro r; split
    · exact hf r
    · rfl
  cases hg : t.get k with
  | none =>
    rw [Option.map_none, get_eq_none]
    intro r hr
    obtain ⟨r₀, hr₀, rfl⟩ := mem_update.mp hr
    rw [hkey]; exact get_eq_none.mp hg r₀ hr₀
  | some r =>
    obtain ⟨hm, rfl⟩ := get_eq_some.mp hg
    rw [Option.map_some, get_eq_some]
    exact ⟨mem_update.mpr ⟨r, hm, rfl⟩, hkey r⟩

/-! ## Row counts over one key -/

theorem rowcount_key (t : Table key) (k : κ) (q : α → Bool) :
    t.rowcount (fun r => decide (key r = k) && q r) = ((t.get k).any q).toNat := by
  obtain ⟨rows, nd⟩ := t
  simp only [rowcount, get]
  induction rows with
  | nil => rfl
  | cons r rs ih =>
    rw [List.map_cons, List.nodup_cons] at nd
    by_cases hk : key r = k
    · -- the remaining rows all have another key
      have hrest : rs.countP (fun r => decide (key r = k) && q r) = 0 := by
        rw [List.countP_eq_zero]
        intro r' hr'
        have : key r' ≠ k := fun h => nd.1 (by rw [hk, ← h]; exact List.mem_map_of_mem hr')
        simp [this]
      rw [List.countP_cons, hrest, List.find?_cons_of_pos (by simpa using hk)]
      cases hq : q r <;> simp [hk, hq]
    · rw [List.countP_cons_of_neg (by simp [hk]), List.find?_cons_of_neg (by simpa using hk)]
      exact ih nd.2

theorem rowcount_key_ne_zero {t : Table key} {k : κ} {q : α → Bool} :
    t.rowcount (fun r => decide (key r = k) && q r) ≠ 0 ↔ ∃ r, t.get k = some r ∧ q r = true := by
  rw [rowcount_key]
  cases t.get k <;> simp

/-- An update over one key that matches nothing leaves the table as it is. -/
theorem update_key_none {t : Table key} {k : κ} {q : α → Bool} {f : α → α}
    {hf : ∀ r, key (f r) = key r} (h : (t.get k).any q = false) :
    t.update (fun r => decide (key r = k) && q r) f hf = t := by
  apply ext_rows
  refine (List.map_congr_left fun r hr => ?_).trans (List.map_id t.rows)
  rw [if_neg]
  · rfl
  intro hp
  simp only [Bool.and_eq_true, decide_eq_true_eq] at hp
  rw [get_eq_some.mpr ⟨hr, hp.1⟩, Option.any_some, hp.2] at h
  cases h

/-- An update over one key changes the count of `P` by what it does to that row. -/
theorem countP_update_key (t : Table key) (k : κ) (q : α → Bool) (f : α → α)
    (hf : ∀ r, key (f r) = key r) (P : α → Bool) {r : α} (hg : t.get k = some r)
    (hq : q r = true) :
    (t.update (fun r => decide (key r = k) && q r) f hf).rows.countP P + (P r).toNat =
      t.rows.countP P + (P (f r)).toNat := by
  obtain ⟨rows, nd⟩ := t
  simp only [update, get] at hg ⊢
  induction rows with
  | nil => simp at hg
  | cons r' rs ih =>
    rw [List.map_cons, List.nodup_cons] at nd
    by_cases hk : key r' = k
    · rw [List.find?_cons_of_pos (by simpa using hk)] at hg
      cases hg
      have hrest : rs.map (fun r => if decide (key r = k) && q r then f r else r) = rs := by
        refine (List.map_congr_left ?_).trans (List.map_id rs)
        intro r'' hr''
        have : key r'' ≠ k := fun h => nd.1 (by rw [hk, ← h]; exact List.mem_map_of_mem hr'')
        simp [this]
      rw [List.map_cons, hrest, List.countP_cons, List.countP_cons]
      simp only [hk, hq, decide_true, Bool.and_self, if_true]
      cases P r <;> cases P (f r) <;> simp
    · rw [List.find?_cons_of_neg (by simpa using hk)] at hg
      have := ih nd.2 hg
      rw [List.map_cons, List.countP_cons, List.countP_cons]
      simp only [hk, decide_false, Bool.false_and, Bool.false_eq_true, if_false]
      omega

/-! ## Inserts -/

theorem insert?_eq_some {t t' : Table key} {r : α} (h : t.insert? r = some t') :
    t'.rows = t.rows ++ [r] ∧ t.get (key r) = none := by
  unfold insert? at h
  split at h
  · cases h
  · rename_i hn
    cases h
    refine ⟨rfl, get_eq_none.mpr fun r' hr' hk => hn ?_⟩
    rw [← hk]; exact List.mem_map_of_mem hr'

theorem get_insert? {t t' : Table key} {r : α} (h : t.insert? r = some t') (k : κ) :
    t'.get k = if key r = k then some r else t.get k := by
  obtain ⟨hrows, hnone⟩ := insert?_eq_some h
  by_cases hk : key r = k
  · rw [if_pos hk, get_eq_some, hrows]
    exact ⟨by simp, hk⟩
  · rw [if_neg hk, get, hrows, List.find?_append]
    simp [get, hk]

section Ignore

variable {ι : Type} [DecidableEq ι] {uniq : α → ι}

/-- Re-inserting rows whose unique values are all taken changes nothing. -/
theorem insertIgnore_all_taken {t : Table key} :
    ∀ {rs : List α}, (∀ r ∈ rs, uniq r ∈ t.rows.map uniq) → t.insertIgnore uniq rs = some t
  | [], _ => rfl
  | r :: rs, h => by
    rw [insertIgnore, if_pos (h r (by simp))]
    exact insertIgnore_all_taken fun r' hr' => h r' (by simp [hr'])

/-- Rows whose unique values and keys are all new are appended in order. -/
theorem insertIgnore_all_new :
    ∀ (rs : List α) (t : Table key), (rs.map uniq).Nodup → (rs.map key).Nodup →
      (∀ r ∈ rs, uniq r ∉ t.rows.map uniq) → (∀ r ∈ rs, t.get (key r) = none) →
      ∃ t', t.insertIgnore uniq rs = some t' ∧ t'.rows = t.rows ++ rs
  | [], t, _, _, _, _ => ⟨t, rfl, by simp⟩
  | r :: rs, t, hu, hk, hnu, hnk => by
    rw [List.map_cons, List.nodup_cons] at hu hk
    have hnone := hnk r (by simp)
    have hins : key r ∉ t.rows.map key := by
      intro hm
      obtain ⟨r', hr', he⟩ := List.mem_map.mp hm
      exact get_eq_none.mp hnone r' hr' he
    rw [insertIgnore, if_neg (hnu r (by simp)), insert?, dif_neg hins]
    have hstep := insertIgnore_all_new rs ⟨t.rows ++ [r], by
        rw [List.map_append, List.map_singleton]
        exact t.nodup.append (List.nodup_singleton _) (by simpa using hins)⟩ hu.2 hk.2
      (by
        intro r' hr' hm
        rw [List.map_append, List.mem_append] at hm
        rcases hm with hm | hm
        · exact hnu r' (by simp [hr']) hm
        · rw [List.map_singleton, List.mem_singleton] at hm
          exact hu.1 (hm ▸ List.mem_map_of_mem hr'))
      (by
        intro r' hr'
        rw [get_eq_none]
        intro r'' hr''
        rw [List.mem_append, List.mem_singleton] at hr''
        rcases hr'' with hr'' | rfl
        · exact get_eq_none.mp (hnk r' (by simp [hr'])) r'' hr''
        · exact fun he => hk.1 (he ▸ List.mem_map_of_mem hr'))
    obtain ⟨t', ht', hrows⟩ := hstep
    exact ⟨t', ht', by rw [hrows]; simp⟩

/-- Afterwards the unique values of the rows are all taken, and none that was there is gone. -/
theorem insertIgnore_taken : ∀ {rs : List α} {t t' : Table key}, t.insertIgnore uniq rs = some t' →
      (∀ r ∈ rs, uniq r ∈ t'.rows.map uniq) ∧ ∀ r ∈ t.rows, r ∈ t'.rows
  | [], t, t', h => by
    cases h
    exact ⟨by simp, fun r hr => hr⟩
  | r :: rs, t, t', h => by
    rw [insertIgnore] at h
    split at h
    · rename_i htaken
      obtain ⟨hrs, hkept⟩ := insertIgnore_taken h
      refine ⟨fun r' hr' => ?_, hkept⟩
      rcases List.mem_cons.mp hr' with rfl | hr'
      · obtain ⟨x, hx, he⟩ := List.mem_map.mp htaken
        exact List.mem_map.mpr ⟨x, hkept x hx, he⟩
      · exact hrs r' hr'
    split at h
    · cases h
    · rename_i t₁ hins
      obtain ⟨hrs, hkept⟩ := insertIgnore_taken h
      obtain ⟨hrows, _⟩ := insert?_eq_some hins
      refine ⟨fun r' hr' => ?_, fun x hx => hkept x (by simp [hrows, hx])⟩
      rcases List.mem_cons.mp hr' with rfl | hr'
      · exact List.mem_map.mpr ⟨r', hkept r' (by simp [hrows]), rfl⟩
      · exact hrs r' hr'

/-- When the keys are made from the unique values, the conflict target covers every violation. -/
theorem insertIgnore_named {name : ι → κ} (hinj : Function.Injective name) :
    ∀ {rs : List α} {t : Table key}, (∀ r ∈ t.rows, key r = name (uniq r)) →
      (∀ r ∈ rs, key r = name (uniq r)) → ∃ t', t.insertIgnore uniq rs = some t'
  | [], t, _, _ => ⟨t, rfl⟩
  | r :: rs, t, ht, hrs => by
    rw [insertIgnore]
    split
    · exact insertIgnore_named hinj ht fun r' hr' => hrs r' (by simp [hr'])
    · rename_i hnew
      have hkey : key r ∉ t.rows.map key := by
        intro hmem
        obtain ⟨x, hx, he⟩ := List.mem_map.mp hmem
        rw [ht x hx, hrs r (by simp)] at he
        exact hnew (List.mem_map.mpr ⟨x, hx, hinj he⟩)
      rw [insert?, dif_neg hkey]
      refine insertIgnore_named hinj (fun x hx => ?_) fun r' hr' => hrs r' (by simp [hr'])
      rcases List.mem_append.mp hx with hx | hx
      · exact ht x hx
      · rw [List.mem_singleton.mp hx]
        exact hrs r (by simp)

end Ignore

end Table
end Relational
