import AudioEngine.Lib.Table

/-!
# AudioEngine.Lib.Registry

A registry of things that are declared, not created: the first declaration enters the thing under
its name, every later one checks that the same thing stands there.

Declarers that mean the same thing by the same name never conflict, in whatever order they come and
wherever they are cut off: a declaration is refused only for what it asks for (`declare_refused`).
-/

namespace Relational

inductive Refused where
  | inequivalent
  | invalid
deriving DecidableEq, Repr

namespace Table

variable {α κ : Type} [DecidableEq α] [DecidableEq κ] {key : α → κ}

/-- Declare `x`, which only has to be valid where nothing has its name yet. -/
def declare (valid : α → Bool) (t : Table key) (x : α) : Except Refused (Table key) :=
  match t.insert? x with
  | none => if t.get (key x) = some x then .ok t else .error .inequivalent
  | some t' => if valid x then .ok t' else .error .invalid

/-- Keep the rows with `p`. -/
def keep (p : α → Bool) (t : Table key) : Table key :=
  ⟨t.rows.filter p, t.nodup.sublist (List.filter_sublist.map key)⟩

variable {valid : α → Bool} {t t' : Table key} {x : α}

theorem declare_ok (h : t.declare valid x = .ok t') :
    x ∈ t'.rows ∧ (∀ y ∈ t.rows, y ∈ t'.rows) ∧ ∀ y ∈ t'.rows, y ∈ t.rows ∨ y = x := by
  unfold declare at h
  split at h
  · split at h
    · rename_i hx
      cases h
      exact ⟨(get_eq_some.mp hx).1, fun y hy => hy, fun y hy => .inl hy⟩
    · cases h
  · rename_i t₁ hins
    split at h
    · cases h
      rw [(insert?_eq_some hins).1]
      exact ⟨by simp, fun y hy => by simp [hy], fun y hy => by simpa using hy⟩
    · cases h

omit [DecidableEq α] in
theorem insert?_eq_none (h : t.insert? x = none) : ∃ y ∈ t.rows, key y = key x := by
  unfold insert? at h
  split at h
  · rename_i hmem
    exact List.mem_map.mp hmem
  · cases h

/-- Where the name means what it is declared as, only an invalid thing is refused. -/
theorem declare_refused {e : Refused} (hagree : ∀ y ∈ t.rows, key y = key x → y = x)
    (h : t.declare valid x = .error e) : e = .invalid ∧ valid x = false := by
  unfold declare at h
  split at h
  · rename_i hins
    obtain ⟨y, hy, hkey⟩ := insert?_eq_none hins
    obtain rfl := hagree y hy hkey
    rw [if_pos (get_of_mem hy)] at h
    cases h
  · split at h
    · cases h
    · rename_i hvalid
      cases h
      exact ⟨rfl, by simpa using hvalid⟩

omit [DecidableEq α] [DecidableEq κ] in
theorem keep_eq_self {p : α → Bool} (h : ∀ y ∈ t.rows, p y = true) : t.keep p = t :=
  ext_rows (List.filter_eq_self.mpr h)

omit [DecidableEq α] [DecidableEq κ] in
/-- A condition that one row meets picks it, once. -/
theorem filter_eq_singleton {p : α → Bool} {r : α} (hr : r ∈ t.rows) (hp : p r = true)
    (hall : ∀ y ∈ t.rows, p y = true → y = r) : t.rows.filter p = [r] := by
  have hnd : t.rows.Nodup := t.nodup.of_map
  refine List.perm_singleton.mp ((List.perm_ext_iff_of_nodup (hnd.filter p)
    (List.nodup_singleton r)).mpr fun y => ?_)
  rw [List.mem_filter, List.mem_singleton]
  constructor
  · rintro ⟨hy, hpy⟩
    exact hall y hy hpy
  · rintro rfl
    exact ⟨hr, hp⟩

end Table
end Relational
