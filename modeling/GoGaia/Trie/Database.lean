import GoGaia.Trie.Hasher

/-!
# Reads and writes of the node database

The trie reads its nodes from a `MemDatabase` by hash and writes them in commit mode. Three facts
about the writes carry the trie's proofs across a commit. Every write stores a node under its
Keccak-256 hash (`Keyed`). A database extends another when it holds the other's writes and more
(`Extends`). When no two writes of the final database store different values under one key
(`Functional`, which `Keyed` and `CollisionFree` give), every read of an earlier database reads
the same value there (`Extends.agrees`): a node stored once stays readable under its hash.
-/

namespace GoGaia.Patricia

namespace MemDatabase

/-- A read returns a write. -/
theorem mem_of_get {db : MemDatabase} {k v : List UInt8} (h : db.get k = some v) :
    (k, v) ∈ db.puts := by
  simp only [get, Option.map_eq_some_iff] at h
  obtain ⟨p, hp, rfl⟩ := h
  have hk := List.find?_some hp
  simp only [beq_iff_eq] at hk
  rw [← hk]
  exact List.mem_of_find?_eq_some hp

/-- A key that has a write can be read. -/
theorem get_isSome_of_mem {db : MemDatabase} {k v : List UInt8} (h : (k, v) ∈ db.puts) :
    ∃ v', db.get k = some v' := by
  cases hf : db.puts.find? (·.1 == k) with
  | none =>
    have := List.find?_eq_none.mp hf (k, v) h
    simp at this
  | some p => exact ⟨p.2, by simp [get, hf]⟩

end MemDatabase

/-- `db'` holds the writes of `db`, and newer ones. -/
def Extends (db db' : MemDatabase) : Prop := ∃ new, db'.puts = new ++ db.puts

/-- No two writes store different values under one key. -/
def Functional (db : MemDatabase) : Prop :=
  ∀ p ∈ db.puts, ∀ q ∈ db.puts, p.1 = q.1 → p.2 = q.2

/-- Every write stores a value under its hash. -/
def Keyed (keccak : List UInt8 → List UInt8) (db : MemDatabase) : Prop :=
  ∀ p ∈ db.puts, p.1 = keccak p.2

/-- Keccak has no collision among the values written. -/
def CollisionFree (keccak : List UInt8 → List UInt8) (db : MemDatabase) : Prop :=
  ∀ p ∈ db.puts, ∀ q ∈ db.puts, keccak p.2 = keccak q.2 → p.2 = q.2

/-- Every read of `db` reads the same value in `db'`. -/
def Agrees (db db' : MemDatabase) : Prop := ∀ k v, db.get k = some v → db'.get k = some v

theorem Extends.refl (db : MemDatabase) : Extends db db := ⟨[], rfl⟩

theorem Extends.trans {db₁ db₂ db₃ : MemDatabase} (h₁ : Extends db₁ db₂) (h₂ : Extends db₂ db₃) :
    Extends db₁ db₃ := by
  obtain ⟨n₁, h₁⟩ := h₁
  obtain ⟨n₂, h₂⟩ := h₂
  exact ⟨n₂ ++ n₁, by rw [h₂, h₁, List.append_assoc]⟩

theorem Extends.put (db : MemDatabase) (k v : List UInt8) : Extends db (db.put k v) :=
  ⟨[(k, v)], rfl⟩

theorem Extends.subset {db db' : MemDatabase} (h : Extends db db') : db.puts ⊆ db'.puts := by
  obtain ⟨new, h⟩ := h
  rw [h]
  exact List.subset_append_right _ _

theorem CollisionFree.of_extends {keccak : List UInt8 → List UInt8} {db db' : MemDatabase}
    (h : Extends db db') (hc : CollisionFree keccak db') : CollisionFree keccak db :=
  fun p hp q hq => hc p (h.subset hp) q (h.subset hq)

/-- Writes keyed by their hash, without collisions, never store two values under one key. -/
theorem Keyed.functional {keccak : List UInt8 → List UInt8} {db : MemDatabase}
    (hk : Keyed keccak db) (hc : CollisionFree keccak db) : Functional db := by
  intro p hp q hq he
  apply hc p hp q hq
  rw [← hk p hp, ← hk q hq, he]

/-- A database that extends `db` without conflicting writes reads what `db` reads. -/
theorem Extends.agrees {db db' : MemDatabase} (h : Extends db db') (hf : Functional db') :
    Agrees db db' := by
  intro k v hg
  have hmem := h.subset (MemDatabase.mem_of_get hg)
  obtain ⟨v', hv'⟩ := MemDatabase.get_isSome_of_mem hmem
  have he : v' = v := hf _ (MemDatabase.mem_of_get hv') _ hmem rfl
  rw [hv', he]

end GoGaia.Patricia
