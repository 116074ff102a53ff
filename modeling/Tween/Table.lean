/-
Finite maps from names to values, kept in the order of the names. The order is
part of the type, so two tables with the same answers are equal
(`Table.ext_get?`). Main statements: what `insert` does to a lookup
(`get?_insert`), and what `map` does (`get?_map`).
-/
namespace Tween

/-- A finite map from names to values, in the order of the names. -/
@[ext] structure Table (β : Type) where
  entries : List (String × β)
  sorted : entries.Pairwise (fun a b => a.1 < b.1)

namespace Table

variable {β γ : Type}

/-- The table with no names. -/
def empty : Table β := ⟨[], .nil⟩

instance : EmptyCollection (Table β) := ⟨empty⟩

instance : Inhabited (Table β) := ⟨empty⟩

/-- The value of the first entry with a given name. -/
def find (key : String) : List (String × β) → Option β
  | [] => none
  | (k, v) :: rest => if k = key then some v else find key rest

/-- The value under a name. -/
def get? (t : Table β) (key : String) : Option β := find key t.entries

/-- Entries with one more name, put in its place; a value already there is
replaced. -/
def place (key : String) (value : β) : List (String × β) → List (String × β)
  | [] => [(key, value)]
  | (k, v) :: rest =>
    if key < k then (key, value) :: (k, v) :: rest
    else if k = key then (key, value) :: rest
    else (k, v) :: place key value rest

theorem mem_place {key : String} {value : β} {e : String × β} {l : List (String × β)}
    (h : e ∈ place key value l) : e = (key, value) ∨ e ∈ l := by
  induction l with
  | nil => simpa [place] using h
  | cons a rest ih =>
    obtain ⟨k, v⟩ := a
    simp only [place] at h
    split at h
    · simpa using h
    · split at h
      · simp only [List.mem_cons] at h ⊢
        grind
      · simp only [List.mem_cons] at h ⊢
        grind

theorem pairwise_place (key : String) (value : β) {l : List (String × β)}
    (h : l.Pairwise (fun a b => a.1 < b.1)) :
    (place key value l).Pairwise (fun a b => a.1 < b.1) := by
  induction l with
  | nil => simp [place]
  | cons a rest ih =>
    obtain ⟨k, v⟩ := a
    obtain ⟨hk, hrest⟩ := List.pairwise_cons.1 h
    simp only [place]
    split
    · rename_i hlt
      refine List.pairwise_cons.2 ⟨fun e he => ?_, h⟩
      rcases List.mem_cons.1 he with rfl | he
      · exact hlt
      · exact String.lt_trans hlt (hk e he)
    · split
      · rename_i heq
        subst heq
        exact List.pairwise_cons.2 ⟨hk, hrest⟩
      · rename_i hlt hne
        refine List.pairwise_cons.2 ⟨fun e he => ?_, ih hrest⟩
        rcases mem_place he with rfl | he
        · exact Classical.byContradiction fun hn =>
            hne (String.le_antisymm hlt hn)
        · exact hk e he

/-- The table with `value` under `key`. -/
def insert (t : Table β) (key : String) (value : β) : Table β :=
  ⟨place key value t.entries, pairwise_place key value t.sorted⟩

/-- The table of a list of entries; of several under one name the last
counts. -/
def ofList (l : List (String × β)) : Table β :=
  l.foldl (fun t e => t.insert e.1 e.2) empty

/-- The names, in order. -/
def keys (t : Table β) : List String := t.entries.map Prod.fst

def size (t : Table β) : Nat := t.entries.length

def isEmpty (t : Table β) : Bool := t.entries.isEmpty

def contains (t : Table β) (key : String) : Bool := (t.get? key).isSome

/-- The entries that satisfy a test. -/
def filter (p : String → β → Bool) (t : Table β) : Table β :=
  ⟨t.entries.filter (fun e => p e.1 e.2), t.sorted.filter _⟩

/-- Every value changed, its name kept. -/
def map (f : String → β → γ) (t : Table β) : Table γ :=
  ⟨t.entries.map (fun e => (e.1, f e.1 e.2)),
    List.pairwise_map.2 t.sorted⟩

/-- The first table with every entry of the second put into it. -/
def union (t u : Table β) : Table β :=
  u.entries.foldl (fun t e => t.insert e.1 e.2) t

/-- Entries with every value changed by a function that may fail; the first
failure counts. -/
def traverseEntries {ε : Type} (f : String → β → Except ε γ) :
    List (String × β) → Except ε (List (String × γ))
  | [] => .ok []
  | (k, v) :: rest => do
    let w ← f k v
    let ws ← traverseEntries f rest
    pure ((k, w) :: ws)

theorem names_of_traverseEntries {ε : Type} {f : String → β → Except ε γ} :
    ∀ {l : List (String × β)} {m : List (String × γ)}, traverseEntries f l = .ok m →
      m.map Prod.fst = l.map Prod.fst
  | [], m, h => by
    cases h
    rfl
  | (k, v) :: rest, m, h => by
    simp only [traverseEntries, bind, Except.bind] at h
    cases hw : f k v with
    | error e => simp [hw] at h
    | ok w =>
      cases hs : traverseEntries f rest with
      | error e => simp [hw, hs] at h
      | ok ws =>
        simp only [hw, hs, pure, Except.pure, Except.ok.injEq] at h
        subst h
        simp [names_of_traverseEntries hs]

/-- Every value changed by a function that may fail. -/
def traverse {ε : Type} (f : String → β → Except ε γ) (t : Table β) : Except ε (Table γ) :=
  match h : traverseEntries f t.entries with
  | .error e => .error e
  | .ok l => .ok ⟨l, List.pairwise_map.1 (by
      rw [names_of_traverseEntries h]
      exact List.pairwise_map.2 t.sorted)⟩

theorem find_place (key k : String) (value : β) (l : List (String × β)) :
    find k (place key value l) = if k = key then some value else find k l := by
  induction l with
  | nil => simp only [place, find]; grind
  | cons a rest ih =>
    obtain ⟨k', v⟩ := a
    simp only [place]
    split
    · simp only [find]; grind
    · split
      · simp only [find]; grind
      · simp only [find, ih]; grind

@[simp] theorem get?_empty (k : String) : (empty : Table β).get? k = none := rfl

/-- A lookup after an insertion. -/
theorem get?_insert (t : Table β) (key k : String) (value : β) :
    (t.insert key value).get? k = if k = key then some value else t.get? k :=
  find_place key k value t.entries

@[simp] theorem get?_insert_self (t : Table β) (key : String) (value : β) :
    (t.insert key value).get? key = some value := by
  simp [get?_insert]

theorem find_map (f : String → β → γ) (k : String) (l : List (String × β)) :
    find k (l.map (fun e => (e.1, f e.1 e.2))) = (find k l).map (f k) := by
  induction l with
  | nil => rfl
  | cons a rest ih => simp only [List.map_cons, find, ih]; grind

/-- A lookup after a change of every value. -/
theorem get?_map (f : String → β → γ) (t : Table β) (k : String) :
    (t.map f).get? k = (t.get? k).map (f k) :=
  find_map f k t.entries

@[simp] theorem keys_map (f : String → β → γ) (t : Table β) : (t.map f).keys = t.keys := by
  simp [keys, map]

theorem find_eq_none {key : String} {l : List (String × β)}
    (h : ∀ e ∈ l, e.1 ≠ key) : find key l = none := by
  induction l with
  | nil => rfl
  | cons a rest ih => simp_all [find]

theorem find_eq_some_of_mem {l : List (String × β)}
    (hs : l.Pairwise (fun a b => a.1 < b.1)) {k : String} {v : β} (h : (k, v) ∈ l) :
    find k l = some v := by
  induction l with
  | nil => simp at h
  | cons a rest ih =>
    obtain ⟨hlt, hrest⟩ := List.pairwise_cons.1 hs
    simp only [find]
    rcases List.mem_cons.1 h with rfl | hmem
    · simp
    · have hne : a.1 ≠ k := fun he => String.lt_irrefl k (by simpa [he] using hlt _ hmem)
      simp [hne, ih hrest hmem]

theorem mem_of_find_eq_some {l : List (String × β)} {k : String} {v : β}
    (h : find k l = some v) : (k, v) ∈ l := by
  induction l with
  | nil => simp [find] at h
  | cons a rest ih =>
    obtain ⟨k', v'⟩ := a
    simp only [find] at h
    split at h
    · simp_all
    · exact List.mem_cons_of_mem _ (ih h)

/-- An entry is in the table exactly when a lookup of its name gives it. -/
theorem mem_entries_iff (t : Table β) (k : String) (v : β) :
    (k, v) ∈ t.entries ↔ t.get? k = some v :=
  ⟨find_eq_some_of_mem t.sorted, mem_of_find_eq_some⟩

/-- No name stands in a table twice. -/
theorem nodup_names (t : Table β) : (t.entries.map Prod.fst).Nodup := by
  refine List.pairwise_map.2 (t.sorted.imp ?_)
  intro a b hlt heq
  exact String.lt_irrefl b.1 (heq ▸ hlt)

theorem entries_eq_of_find {l m : List (String × β)}
    (hl : l.Pairwise (fun a b => a.1 < b.1)) (hm : m.Pairwise (fun a b => a.1 < b.1))
    (h : ∀ k, find k l = find k m) : l = m := by
  induction l generalizing m with
  | nil =>
    cases m with
    | nil => rfl
    | cons b _ => exact absurd (h b.1) (by simp [find])
  | cons a l ih =>
    cases m with
    | nil => exact absurd (h a.1) (by simp [find])
    | cons b m =>
      obtain ⟨hla, hl'⟩ := List.pairwise_cons.1 hl
      obtain ⟨hmb, hm'⟩ := List.pairwise_cons.1 hm
      have ha := h a.1
      have hb := h b.1
      simp only [find, if_true] at ha hb
      have hk : a.1 = b.1 := by
        apply Classical.byContradiction
        intro hne
        rw [if_neg (Ne.symm hne)] at ha
        rw [if_neg hne] at hb
        exact String.lt_asymm (hmb _ (mem_of_find_eq_some ha.symm))
          (hla _ (mem_of_find_eq_some hb))
      have hab : a = b := by
        rw [if_pos hk.symm] at ha
        exact Prod.ext hk (Option.some.inj ha)
      subst hab
      congr 1
      refine ih hl' hm' fun k => ?_
      have hk := h k
      simp only [find] at hk
      by_cases hka : a.1 = k
      · rw [find_eq_none fun e he => ?_, find_eq_none fun e he => ?_]
        · exact fun heq => String.lt_irrefl k (by simpa [hka, heq] using hmb e he)
        · exact fun heq => String.lt_irrefl k (by simpa [hka, heq] using hla e he)
      · simpa [hka] using hk

/-- **Tables are determined by their lookups.** -/
theorem ext_get? {t u : Table β} (h : ∀ k, t.get? k = u.get? k) : t = u :=
  Table.ext (entries_eq_of_find t.sorted u.sorted h)

end Table

end Tween
