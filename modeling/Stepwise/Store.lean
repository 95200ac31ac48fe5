import Stepwise.Value

/-!
# Stores

A store gives values to names. Names that it does not know have the value zero, but they are not
in it: what has been assigned can be told from what has not.

A store is a list of bindings in increasing order of their names. The order is the one in which a
store is written, and it makes the list a function of the values: two stores that give the same
values to the same names are equal.

## Main definitions

* `Store.get?`, `Store.get` — the value of a name
* `Store.insert` — a further assignment

## Main results

* `Store.get?_insert` — an assignment changes the value of its name and of no other
* `Store.ext_get?` — a store is determined by the values it gives
-/

namespace Stepwise

/-- Values of names, in increasing order of the names. -/
structure Store where
  bindings : List (String × Value)
  sorted : bindings.Pairwise (·.1 < ·.1)
deriving DecidableEq

namespace Store

/-- The store in which nothing has been assigned. -/
def empty : Store := ⟨[], .nil⟩

instance : EmptyCollection Store := ⟨empty⟩

instance : Inhabited Store := ⟨empty⟩

/-- The bindings with a further one, which replaces the one of its name. -/
def insertBinding (name : String) (value : Value) : List (String × Value) → List (String × Value)
  | [] => [(name, value)]
  | (n, v) :: rest =>
    if name < n then (name, value) :: (n, v) :: rest
    else if name = n then (name, value) :: rest
    else (n, v) :: insertBinding name value rest

theorem mem_insertBinding {name : String} {value : Value} {bindings : List (String × Value)}
    {b : String × Value} (h : b ∈ insertBinding name value bindings) :
    b = (name, value) ∨ b ∈ bindings := by
  induction bindings with
  | nil => exact .inl (List.mem_singleton.1 h)
  | cons c rest ih =>
    obtain ⟨n, v⟩ := c
    unfold insertBinding at h
    grind

theorem lt_of_not_lt_of_ne {a b : String} (hlt : ¬ a < b) (hne : a ≠ b) : b < a :=
  Decidable.byContradiction fun h =>
    hne (String.le_antisymm (String.not_lt.1 h) (String.not_lt.1 hlt))

theorem sorted_insertBinding {name : String} {value : Value} {bindings : List (String × Value)}
    (h : bindings.Pairwise (·.1 < ·.1)) :
    (insertBinding name value bindings).Pairwise (·.1 < ·.1) := by
  induction bindings with
  | nil => simp [insertBinding]
  | cons c rest ih =>
    obtain ⟨n, v⟩ := c
    obtain ⟨hhead, hrest⟩ := List.pairwise_cons.1 h
    unfold insertBinding
    split
    · next hlt =>
      refine List.pairwise_cons.2 ⟨fun b hb => ?_, h⟩
      rcases List.mem_cons.1 hb with rfl | hb
      · exact hlt
      · exact String.lt_trans hlt (hhead b hb)
    · split
      · next heq => exact List.pairwise_cons.2 ⟨fun b hb => heq ▸ hhead b hb, hrest⟩
      · next hlt hne =>
        refine List.pairwise_cons.2 ⟨fun b hb => ?_, ih hrest⟩
        rcases mem_insertBinding hb with rfl | hb
        · exact lt_of_not_lt_of_ne hlt hne
        · exact hhead b hb

/-- The store after a further assignment. -/
def insert (s : Store) (name : String) (value : Value) : Store :=
  ⟨insertBinding name value s.bindings, sorted_insertBinding s.sorted⟩

/-- The store of a list of assignments, of which the last to a name counts. -/
def ofList (assignments : List (String × Value)) : Store :=
  assignments.foldl (fun s b => s.insert b.1 b.2) empty

/-- The value that was assigned to a name. -/
def get? (s : Store) (name : String) : Option Value := s.bindings.lookup name

/-- The value of a name. -/
def get (s : Store) (name : String) : Value := (s.get? name).getD .zero

@[simp] theorem get?_empty (name : String) : empty.get? name = none := rfl

theorem lookup_cons (n name : String) (v : Value) (rest : List (String × Value)) :
    ((n, v) :: rest).lookup name = if name = n then some v else rest.lookup name := by
  rw [List.lookup_cons]
  by_cases h : name = n
  · simp [h]
  · simp [h, beq_eq_false_iff_ne.2 h]

theorem lookup_insertBinding (name other : String) (value : Value)
    (bindings : List (String × Value)) :
    (insertBinding name value bindings).lookup other =
      if other = name then some value else bindings.lookup other := by
  induction bindings with
  | nil => simp [insertBinding, lookup_cons]
  | cons c rest ih =>
    obtain ⟨n, v⟩ := c
    unfold insertBinding
    split
    · simp only [lookup_cons]
    · split
      · next heq =>
        subst heq
        simp only [lookup_cons]
        split <;> rfl
      · next hne =>
        simp only [lookup_cons, ih]
        by_cases h : other = n
        · subst h
          simp [Ne.symm hne]
        · simp [h]

/-- A name below all names of a list has no binding in it. -/
theorem lookup_eq_none_of_lt {name : String} {bindings : List (String × Value)}
    (h : ∀ b ∈ bindings, name < b.1) : bindings.lookup name = none := by
  induction bindings with
  | nil => rfl
  | cons c rest ih =>
    obtain ⟨n, v⟩ := c
    have hlt : name < n := h (n, v) List.mem_cons_self
    have hne : name ≠ n := fun heq => String.lt_irrefl n (heq ▸ hlt)
    rw [lookup_cons, if_neg hne]
    exact ih fun b hb => h b (List.mem_cons_of_mem _ hb)

/-- Sorted bindings are determined by the values they give. -/
theorem bindings_eq_of_lookup_eq : {as bs : List (String × Value)} →
    as.Pairwise (·.1 < ·.1) → bs.Pairwise (·.1 < ·.1) →
    (∀ name, as.lookup name = bs.lookup name) → as = bs
  | [], [], _, _, _ => rfl
  | [], (n, v) :: _, _, _, h => by simpa [lookup_cons] using h n
  | (n, v) :: _, [], _, _, h => by simpa [lookup_cons] using h n
  | (m, v) :: as, (n, w) :: bs, hs, ht, h => by
    obtain ⟨hm, has⟩ := List.pairwise_cons.1 hs
    obtain ⟨hn, hbs⟩ := List.pairwise_cons.1 ht
    have hmn : m = n := by
      refine Decidable.byContradiction fun hne => ?_
      by_cases hlt : m < n
      · have hnone : ((n, w) :: bs).lookup m = none := by
          refine lookup_eq_none_of_lt fun b hb => ?_
          rcases List.mem_cons.1 hb with rfl | hb
          · exact hlt
          · exact String.lt_trans hlt (hn b hb)
        have := h m
        rw [hnone, lookup_cons, if_pos rfl] at this
        cases this
      · have hlt := lt_of_not_lt_of_ne hlt hne
        have hnone : ((m, v) :: as).lookup n = none := by
          refine lookup_eq_none_of_lt fun b hb => ?_
          rcases List.mem_cons.1 hb with rfl | hb
          · exact hlt
          · exact String.lt_trans hlt (hm b hb)
        have := h n
        rw [hnone, lookup_cons, if_pos rfl] at this
        cases this
    subst hmn
    have hvw : v = w := by simpa [lookup_cons] using h m
    subst hvw
    congr 1
    refine bindings_eq_of_lookup_eq has hbs fun name => ?_
    by_cases hname : name = m
    · subst hname
      rw [lookup_eq_none_of_lt hm, lookup_eq_none_of_lt hn]
    · simpa [lookup_cons, hname] using h name

@[simp] theorem get?_insert (s : Store) (name other : String) (value : Value) :
    (s.insert name value).get? other = if other = name then some value else s.get? other :=
  lookup_insertBinding ..

/-- A store is determined by the values it gives. -/
theorem ext_get? {s t : Store} (h : ∀ name, s.get? name = t.get? name) : s = t := by
  obtain ⟨as, has⟩ := s
  obtain ⟨bs, hbs⟩ := t
  have : as = bs := bindings_eq_of_lookup_eq has hbs h
  subst this
  rfl

theorem get_insert_self (s : Store) (name : String) (value : Value) :
    (s.insert name value).get name = value := by simp [get]

end Store

end Stepwise
