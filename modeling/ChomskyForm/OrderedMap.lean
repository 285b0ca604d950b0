/-!
# Ordered maps

A finite map that lists its bindings in the order in which their keys were first bound. Changing
the value of a bound key keeps its place; an unbound key goes to the end.
-/

namespace ChomskyForm

/-- A finite map with its keys in order of first binding. -/
@[ext]
structure OrderedMap (Key Value : Type) where
  entries : List (Key × Value)
  nodup_keys : (entries.map Prod.fst).Nodup
deriving DecidableEq

namespace OrderedMap

variable {Key Value Other : Type}

def empty : OrderedMap Key Value := ⟨[], .nil⟩

def keys (map : OrderedMap Key Value) : List Key := map.entries.map Prod.fst

def mapValues (map : OrderedMap Key Value) (change : Key → Value → Other) :
    OrderedMap Key Other where
  entries := map.entries.map fun (key, value) => (key, change key value)
  nodup_keys := by simpa [Function.comp_def] using map.nodup_keys

variable [DecidableEq Key]

def get? (map : OrderedMap Key Value) (key : Key) : Option Value := map.entries.lookup key

/-- Changes the value at the key in place, or binds the key at the end. -/
def updateEntries (key : Key) (change : Option Value → Value) :
    List (Key × Value) → List (Key × Value)
  | [] => [(key, change none)]
  | (bound, value) :: rest =>
      if bound = key then (bound, change (some value)) :: rest
      else (bound, value) :: updateEntries key change rest

theorem keys_updateEntries (key : Key) (change : Option Value → Value)
    (entries : List (Key × Value)) :
    (updateEntries key change entries).map Prod.fst =
      if key ∈ entries.map Prod.fst then entries.map Prod.fst
      else entries.map Prod.fst ++ [key] := by
  induction entries with
  | nil => simp [updateEntries]
  | cons entry rest ih =>
      obtain ⟨bound, value⟩ := entry
      by_cases heq : bound = key
      · simp [updateEntries, heq]
      · by_cases hmem : key ∈ rest.map Prod.fst
        · rw [if_pos hmem] at ih
          rw [if_pos (by exact List.mem_cons_of_mem _ hmem)]
          simp [updateEntries, heq, ih]
        · rw [if_neg hmem] at ih
          have hnot : key ∉ ((bound, value) :: rest).map Prod.fst := by
            rw [List.map_cons, List.mem_cons, not_or]
            exact ⟨Ne.symm heq, hmem⟩
          rw [if_neg hnot]
          simp [updateEntries, heq, ih]

/-- Binds the key to what `change` makes of its present value. -/
def update (map : OrderedMap Key Value) (key : Key) (change : Option Value → Value) :
    OrderedMap Key Value where
  entries := updateEntries key change map.entries
  nodup_keys := by
    rw [keys_updateEntries]
    split
    · exact map.nodup_keys
    · rename_i absent
      refine List.nodup_append.2 ⟨map.nodup_keys, by simp, ?_⟩
      intro a ha b hb heq
      rw [List.mem_singleton.1 hb] at heq
      exact absent (heq ▸ ha)

def insert (map : OrderedMap Key Value) (key : Key) (value : Value) : OrderedMap Key Value :=
  map.update key fun _ => value

/-- Two maps with the same bindings, in whatever order. -/
def SameBindings (first second : OrderedMap Key Value) : Prop :=
  (∀ key ∈ first.keys, first.get? key = second.get? key) ∧
    ∀ key ∈ second.keys, key ∈ first.keys

instance [DecidableEq Value] (first second : OrderedMap Key Value) :
    Decidable (first.SameBindings second) := by
  unfold SameBindings
  infer_instance

omit [DecidableEq Key] in
@[simp]
theorem keys_mapValues (map : OrderedMap Key Value) (change : Key → Value → Other) :
    (map.mapValues change).keys = map.keys := by
  simp [keys, mapValues, Function.comp_def]

theorem keys_update (map : OrderedMap Key Value) (key : Key) (change : Option Value → Value) :
    (map.update key change).keys = if key ∈ map.keys then map.keys else map.keys ++ [key] :=
  keys_updateEntries key change map.entries

theorem keys_insert (map : OrderedMap Key Value) (key : Key) (value : Value) :
    (map.insert key value).keys = if key ∈ map.keys then map.keys else map.keys ++ [key] :=
  map.keys_update key _

theorem updateEntries_of_notMem (change : Option Value → Value) {key : Key}
    {entries : List (Key × Value)} (h : key ∉ entries.map Prod.fst) :
    updateEntries key change entries = entries ++ [(key, change none)] := by
  induction entries with
  | nil => rfl
  | cons entry rest ih =>
      rw [List.map_cons, List.mem_cons, not_or] at h
      rw [updateEntries, if_neg (Ne.symm h.1), ih h.2, List.cons_append]

/-- A new key is bound behind all that is bound already. -/
theorem entries_insert_of_notMem {map : OrderedMap Key Value} {key : Key} (h : key ∉ map.keys)
    (value : Value) : (map.insert key value).entries = map.entries ++ [(key, value)] :=
  updateEntries_of_notMem _ h

theorem lookup_entry (key bound : Key) (value : Value) (rest : List (Key × Value)) :
    ((bound, value) :: rest).lookup key = if key = bound then some value else rest.lookup key := by
  by_cases heq : key = bound
  · simp [heq]
  · rw [List.lookup_cons, beq_false_of_ne heq, if_neg heq]

theorem lookup_updateEntries (key : Key) (change : Option Value → Value)
    (entries : List (Key × Value)) (sought : Key) :
    (updateEntries key change entries).lookup sought =
      if sought = key then some (change (entries.lookup key)) else entries.lookup sought := by
  induction entries with
  | nil => simp [updateEntries, lookup_entry]
  | cons entry rest ih =>
      obtain ⟨bound, value⟩ := entry
      by_cases heq : bound = key
      · subst heq
        by_cases hs : sought = bound <;> simp [updateEntries, lookup_entry, hs]
      · by_cases hs : sought = bound
        · subst hs
          simp [updateEntries, heq]
        · simp [updateEntries, lookup_entry, heq, hs, Ne.symm heq, ih]

theorem get?_update (map : OrderedMap Key Value) (key : Key) (change : Option Value → Value)
    (sought : Key) :
    (map.update key change).get? sought =
      if sought = key then some (change (map.get? key)) else map.get? sought :=
  lookup_updateEntries key change map.entries sought

theorem get?_insert (map : OrderedMap Key Value) (key : Key) (value : Value) (sought : Key) :
    (map.insert key value).get? sought = if sought = key then some value else map.get? sought :=
  map.get?_update key _ sought

theorem get?_mapValues (map : OrderedMap Key Value) (change : Key → Value → Other) (key : Key) :
    (map.mapValues change).get? key = (map.get? key).map (change key) := by
  obtain ⟨entries, nodup⟩ := map
  simp only [get?, mapValues]
  clear nodup
  induction entries with
  | nil => rfl
  | cons entry rest ih =>
      obtain ⟨bound, value⟩ := entry
      by_cases heq : key = bound
      · simp [heq]
      · simp [lookup_entry, heq, ih]

theorem get?_eq_none_iff {map : OrderedMap Key Value} {key : Key} :
    map.get? key = none ↔ key ∉ map.keys := by
  obtain ⟨entries, nodup⟩ := map
  simp only [get?, keys]
  clear nodup
  induction entries with
  | nil => simp
  | cons entry rest ih =>
      obtain ⟨bound, value⟩ := entry
      by_cases heq : key = bound
      · simp [heq]
      · rw [lookup_entry, if_neg heq, ih]
        simp [heq]

end OrderedMap

end ChomskyForm
