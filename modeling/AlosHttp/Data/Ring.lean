import Mathlib.Tactic

/-! A ring of slots read from a head position: the elements are the slots `head`,
`head + 1`, ... modulo the capacity. New elements go in front of the head, old ones leave
at the far end. -/
namespace AlosHttp.Data.Ring
open List
variable {α : Type*} [Inhabited α]

def get (slots : List α) (head i : ℕ) : α := slots.getD ((head + i) % slots.length) default

def put (slots : List α) (head i : ℕ) (a : α) : List α := slots.set ((head + i) % slots.length) a

def view (slots : List α) (head len : ℕ) : List α := (range len).map (get slots head)

omit [Inhabited α] in
@[simp] theorem put_length (slots : List α) (head i : ℕ) (a : α) :
    (put slots head i a).length = slots.length := by simp [put]

@[simp] theorem view_length (slots : List α) (head len : ℕ) : (view slots head len).length = len := by simp [view]

theorem view_succ (slots : List α) (head len : ℕ) :
    view slots head (len + 1) = view slots head len ++ [get slots head len] := by
  simp [view, range_succ]

theorem view_getElem? (slots : List α) (head len i : ℕ) (h : i < len) :
    (view slots head len)[i]? = some (get slots head i) := by
  simp [view, h]

variable {head i len : ℕ} {slots : List α}

theorem slot_inj {j cap : ℕ} (hi : i < cap) (hj : j < cap) (h : (head + i) % cap = (head + j) % cap) : i = j := by
  have hmod : i ≡ j [MOD cap] := Nat.ModEq.add_left_cancel' head h
  exact Nat.ModEq.eq_of_lt_of_lt hmod hi hj

theorem get_put_self {a : α} (hcap : 0 < slots.length) : get (put slots head i a) head i = a := by
  have hlt : (head + i) % slots.length < slots.length := Nat.mod_lt _ hcap
  simp [get, put, hlt]

theorem get_put_ne {j : ℕ} {a : α} (hi : i < slots.length) (hj : j < slots.length) (hne : i ≠ j) :
    get (put slots head i a) head j = get slots head j := by
  have hslot : (head + i) % slots.length ≠ (head + j) % slots.length := fun h => hne (slot_inj hi hj h)
  simp [get, put, getElem?_set_ne hslot]

theorem view_put {a : α} (h : len < slots.length) : view (put slots head len a) head len = view slots head len := by
  apply map_congr_left
  intro i hi
  have hlt : i < len := mem_range.mp hi
  exact get_put_ne h (by omega) (by omega)

def before (head cap : ℕ) : ℕ := (head + (cap - 1)) % cap

theorem slot_before (head i : ℕ) {cap : ℕ} (hcap : 0 < cap) : (before head cap + (i + 1)) % cap = (head + i) % cap := by
  unfold before
  rw [Nat.mod_add_mod, show head + (cap - 1) + (i + 1) = head + i + cap by omega,
    Nat.add_mod_right]

theorem view_push {a : α} (h : len < slots.length) :
    view (put slots (before head slots.length) 0 a) (before head slots.length) (len + 1) =
      a :: view slots head len := by
  have hcap : 0 < slots.length := by omega
  unfold view
  rw [range_succ_eq_map, map_cons, get_put_self hcap, map_map]
  congr 1
  apply map_congr_left
  intro i hi
  have hlt : i < len := mem_range.mp hi
  rw [Function.comp_apply, get_put_ne hcap (by omega) (by omega)]
  unfold get
  rw [Nat.succ_eq_add_one, slot_before head i hcap]

theorem view_copy (pad : List α) : view (view slots head len ++ pad) 0 len = view slots head len := by
  apply ext_getElem?
  intro i
  by_cases hi : i < len
  · rw [view_getElem? _ _ _ _ hi, get]
    have hlt : i < (view slots head len ++ pad).length := by simp; omega
    rw [zero_add, Nat.mod_eq_of_lt hlt, getD_eq_getElem?_getD,
      getElem?_append_left (by simpa using hi), view_getElem? _ _ _ _ hi, Option.getD_some]
  · rw [getElem?_eq_none (by simpa using hi), getElem?_eq_none (by simpa using hi)]

end AlosHttp.Data.Ring
