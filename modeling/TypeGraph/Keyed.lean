/-!
# Sets of keyed records

Finite sets of records that are told apart by a text key and listed in the order of
their keys. Keys are compared by code points. Two ways to add a record serve two kinds
of tables: `insert` lets the last record of a key win, `insertNew` the first.
-/

namespace TypeGraph

/-- Records in strictly increasing order of their keys, so at most one of each key. -/
structure Keyed {α : Type} (key : α → String) where
  items : List α
  sorted : items.Pairwise (key · < key ·)

namespace Keyed

variable {α : Type} {key : α → String}

def empty : Keyed key := ⟨[], .nil⟩

instance : Inhabited (Keyed key) := ⟨empty⟩

/-- The record of a key. -/
def find? (m : Keyed key) (k : String) : Option α := m.items.find? (key · == k)

def contains (m : Keyed key) (k : String) : Bool := (m.find? k).isSome

def size (m : Keyed key) : Nat := m.items.length

def keys (m : Keyed key) : List String := m.items.map key

/-- Put `a` at its place in an ordered list; a record with the same key becomes
`resolve` of it. -/
def place (key : α → String) (resolve : α → α) (a : α) : List α → List α
  | [] => [a]
  | b :: rest =>
    if key a < key b then a :: b :: rest
    else if key a = key b then resolve b :: rest
    else b :: place key resolve a rest

theorem key_mem_place {resolve : α → α} {a : α}
    (same : ∀ b, key a = key b → key (resolve b) = key b) {k : String} :
    ∀ {l : List α}, k ∈ (place key resolve a l).map key ↔ k = key a ∨ k ∈ l.map key
  | [] => by simp [place]
  | b :: rest => by
    have ih := key_mem_place same (k := k) (l := rest)
    unfold place
    split
    · simp
    · split
      · rename_i h
        simp only [List.map_cons, List.mem_cons, same b h]
        grind
      · simp only [List.map_cons, List.mem_cons, ih]
        grind

theorem place_sorted {resolve : α → α} {a : α}
    (same : ∀ b, key a = key b → key (resolve b) = key b) :
    ∀ {l : List α}, l.Pairwise (key · < key ·) →
      (place key resolve a l).Pairwise (key · < key ·)
  | [], _ => by simp [place]
  | b :: rest, h => by
    rw [List.pairwise_cons] at h
    have ih := place_sorted same h.2
    unfold place
    split
    · rename_i lt
      refine List.pairwise_cons.2 ⟨fun c hc => ?_, List.pairwise_cons.2 h⟩
      rcases List.mem_cons.1 hc with rfl | hc
      · exact lt
      · exact String.lt_trans lt (h.1 c hc)
    · split
      · rename_i eq
        exact List.pairwise_cons.2 ⟨fun c hc => by rw [same b eq]; exact h.1 c hc, h.2⟩
      · refine List.pairwise_cons.2 ⟨fun c hc => ?_, ih⟩
        have mem := (key_mem_place same).1 (List.mem_map_of_mem hc)
        rcases mem with eq | mem
        · rw [eq]; grind
        · obtain ⟨d, hd, eq⟩ := List.mem_map.1 mem
          exact eq ▸ h.1 d hd

/-- Add a record, in place of one with the same key. -/
def insert (m : Keyed key) (a : α) : Keyed key :=
  ⟨place key (fun _ => a) a m.items, place_sorted (fun _ h => h) m.sorted⟩

/-- Add a record unless there is one with the same key. -/
def insertNew (m : Keyed key) (a : α) : Keyed key :=
  ⟨place key id a m.items, place_sorted (fun _ _ => rfl) m.sorted⟩

end Keyed

end TypeGraph
