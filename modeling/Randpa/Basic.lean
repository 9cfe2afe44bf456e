-- Keys, block ids, and the sets and maps of keys that the randpa code keeps in
-- `std::set` and `std::map`. A set keeps its keys in increasing order, each
-- once, as the C++ containers do, so two sets with the same keys are equal.
import Mathlib

namespace randpa_finality

/-! ## Keys and blocks -/

/-- A public key. A signature is modelled by the key it recovers to, so the
`public_keys()` of a message are its signers. -/
abbrev PublicKey := Nat

/-- A block id: a hash whose leading bits hold the block number. -/
structure BlockId where
  num : UInt32
  hash : Nat
deriving DecidableEq, Repr

/-- `get_block_num`: the number that the id carries. -/
def getBlockNum (id : BlockId) : UInt32 := id.num

/-- The default `block_id_type`, all zeros. -/
def BlockId.zero : BlockId := ⟨0, 0⟩

/-! ## Ordered insertion -/

/-- Put key `k` into an increasing list, unless it is there already. -/
def insertKey (k : PublicKey) : List PublicKey → List PublicKey
  | [] => [k]
  | a :: l => if k < a then k :: a :: l else if k = a then a :: l else a :: insertKey k l

@[simp]
theorem mem_insertKey {k x : PublicKey} {l : List PublicKey} :
    x ∈ insertKey k l ↔ x = k ∨ x ∈ l := by
  induction l with
  | nil => simp [insertKey]
  | cons a l ih =>
    unfold insertKey
    split_ifs with h1 h2
    · simp
    · subst h2; simp
    · simp only [List.mem_cons, ih, or_left_comm]

theorem sorted_insertKey (k : PublicKey) {l : List PublicKey} (h : l.Sorted (· < ·)) :
    (insertKey k l).Sorted (· < ·) := by
  induction l with
  | nil => simp [insertKey]
  | cons a l ih =>
    rw [List.sorted_cons] at h
    unfold insertKey
    split_ifs with h1 h2
    · refine List.sorted_cons.2 ⟨fun b hb => ?_, List.sorted_cons.2 h⟩
      rcases List.mem_cons.1 hb with rfl | hb
      · exact h1
      · exact h1.trans (h.1 b hb)
    · exact List.sorted_cons.2 h
    · refine List.sorted_cons.2 ⟨fun b hb => ?_, ih h.2⟩
      rcases mem_insertKey.1 hb with rfl | hb
      · exact lt_of_le_of_ne (not_lt.1 h1) (Ne.symm h2)
      · exact h.1 b hb

theorem insertKey_nil (k : Nat) : insertKey k [] = [k] := rfl

theorem insertKey_cons_of_lt {k a : Nat} {l : List Nat} (h : k < a) :
    insertKey k (a :: l) = k :: a :: l := if_pos h

theorem insertKey_cons_of_eq {k a : Nat} {l : List Nat} (h : k = a) : insertKey k (a :: l) = a :: l := by
  simp [insertKey, h]

theorem insertKey_cons_of_gt {k a : Nat} {l : List Nat} (h : a < k) :
    insertKey k (a :: l) = a :: insertKey k l := by
  simp [insertKey, not_lt.2 h.le, h.ne']

/-- Inserting two keys in either order gives the same list. Each case places `a`, `b` and
the head `c` in order; the cases where they cannot stand so are closed by `omega`. -/
theorem insertKey_comm (a b : Nat) :
    ∀ l : List Nat, insertKey a (insertKey b l) = insertKey b (insertKey a l)
  | [] => by
    rcases lt_trichotomy a b with h | h | h <;>
      simp (disch := assumption) only [insertKey_nil, insertKey_cons_of_lt, insertKey_cons_of_eq,
        insertKey_cons_of_gt, h]
  | c :: l => by
    by_cases hab : a = b
    · rw [hab]
    rcases lt_or_gt_of_ne hab with h | h <;> rcases lt_trichotomy a c with h1 | h1 | h1 <;>
      rcases lt_trichotomy b c with h2 | h2 | h2 <;>
      first
      | (simp (disch := assumption) only [insertKey_cons_of_lt, insertKey_cons_of_eq,
          insertKey_cons_of_gt, insertKey_comm a b l]; done)
      | omega

/-- Put the entry `(k, v)` into a list of entries in increasing key order. An entry
of key `k` already there keeps its value, or takes `v` when `replace` holds. -/
def putEntry {V : Type} (replace : Bool) (k : PublicKey) (v : V) :
    List (PublicKey × V) → List (PublicKey × V)
  | [] => [(k, v)]
  | (a, w) :: l =>
    if k < a then (k, v) :: (a, w) :: l
    else if k = a then (a, if replace then v else w) :: l
    else (a, w) :: putEntry replace k v l

theorem map_fst_putEntry {V : Type} (replace : Bool) (k : PublicKey) (v : V)
    (l : List (PublicKey × V)) :
    (putEntry replace k v l).map Prod.fst = insertKey k (l.map Prod.fst) := by
  induction l with
  | nil => rfl
  | cons e l ih =>
    obtain ⟨a, w⟩ := e
    simp only [putEntry, insertKey, List.map_cons]
    split_ifs <;> simp [ih]

section putEntry

variable {V : Type} {k a : Nat} {v w : V} {l : List (Nat × V)}

theorem putEntry_nil (r : Bool) : putEntry r k v [] = [(k, v)] := rfl

theorem putEntry_cons_of_lt (r : Bool) (h : k < a) :
    putEntry r k v ((a, w) :: l) = (k, v) :: (a, w) :: l :=
  if_pos h

theorem putEntry_false_cons_of_eq (h : k = a) : putEntry false k v ((a, w) :: l) = (a, w) :: l := by
  simp [putEntry, h]

theorem putEntry_cons_of_gt (r : Bool) (h : a < k) :
    putEntry r k v ((a, w) :: l) = (a, w) :: putEntry r k v l := by
  simp [putEntry, not_lt.2 h.le, h.ne']

end putEntry

/-- Entries of two different keys, put without replacing, land the same in either order. -/
theorem putEntry_comm {V : Type} {a b : Nat} (hab : a ≠ b) (x y : V) :
    ∀ l : List (Nat × V),
      putEntry false a x (putEntry false b y l) = putEntry false b y (putEntry false a x l)
  | [] => by
    rcases lt_or_gt_of_ne hab with h | h <;>
      simp (disch := assumption) only [putEntry_nil, putEntry_cons_of_lt, putEntry_cons_of_gt]
  | (c, w) :: l => by
    rcases lt_or_gt_of_ne hab with h | h <;> rcases lt_trichotomy a c with h1 | h1 | h1 <;>
      rcases lt_trichotomy b c with h2 | h2 | h2 <;>
      first
      | (simp (disch := assumption) only [putEntry_cons_of_lt, putEntry_false_cons_of_eq,
          putEntry_cons_of_gt, putEntry_comm hab x y l]; done)
      | omega

/-! ## `std::set<public_key_type>` -/

/-- A set of keys, as `std::set<public_key_type>`: its keys in increasing order. -/
structure KeySet where
  keys : List PublicKey
  sorted : keys.Sorted (· < ·)
deriving DecidableEq, Repr

namespace KeySet

def empty : KeySet := ⟨[], List.sorted_nil⟩

instance : Membership PublicKey KeySet := ⟨fun s k => k ∈ s.keys⟩

instance (k : PublicKey) (s : KeySet) : Decidable (k ∈ s) :=
  inferInstanceAs (Decidable (k ∈ s.keys))

/-- `insert`: the set with `k`. -/
def insert (s : KeySet) (k : PublicKey) : KeySet := ⟨insertKey k s.keys, sorted_insertKey k s.sorted⟩

/-- `size()`: the number of keys. -/
def size (s : KeySet) : Nat := s.keys.length

theorem mem_def {k : PublicKey} {s : KeySet} : k ∈ s ↔ k ∈ s.keys := Iff.rfl

@[simp]
theorem not_mem_empty (k : PublicKey) : k ∉ empty := by
  simp [mem_def, empty]

@[simp]
theorem mem_insert {s : KeySet} {k x : PublicKey} : x ∈ s.insert k ↔ x = k ∨ x ∈ s := by
  simp [mem_def, insert]

theorem nodup (s : KeySet) : s.keys.Nodup := s.sorted.nodup

theorem insert_comm (s : KeySet) (a b : PublicKey) : (s.insert a).insert b = (s.insert b).insert a := by
  simp only [insert, mk.injEq]
  exact insertKey_comm b a s.keys

end KeySet

/-! ## `std::map<public_key_type, V>` -/

/-- A map from keys, as `std::map<public_key_type, V>`: its entries in increasing key
order. -/
structure KeyMap (V : Type) where
  entries : List (PublicKey × V)
  sorted : (entries.map Prod.fst).Sorted (· < ·)
deriving DecidableEq, Repr

namespace KeyMap

variable {V : Type}

def empty : KeyMap V := ⟨[], List.sorted_nil⟩

/-- `find`: the value at key `k`. -/
def find? (m : KeyMap V) (k : PublicKey) : Option V := m.entries.lookup k

/-- `emplace`: put `(k, v)` unless key `k` is there already. -/
def emplace (m : KeyMap V) (k : PublicKey) (v : V) : KeyMap V :=
  ⟨putEntry false k v m.entries, by rw [map_fst_putEntry]; exact sorted_insertKey k m.sorted⟩

/-- `m[k] = v`: put `(k, v)`, in place of the value at key `k` if there is one. -/
def assign (m : KeyMap V) (k : PublicKey) (v : V) : KeyMap V :=
  ⟨putEntry true k v m.entries, by rw [map_fst_putEntry]; exact sorted_insertKey k m.sorted⟩

/-- The keys, in increasing order. -/
def keys (m : KeyMap V) : List PublicKey := m.entries.map Prod.fst

/-- The values, in the order of their keys, as the map's iterator gives them. -/
def values (m : KeyMap V) : List V := m.entries.map Prod.snd

/-- `size()`: the number of entries. -/
def size (m : KeyMap V) : Nat := m.entries.length

@[simp]
theorem keys_emplace (m : KeyMap V) (k : PublicKey) (v : V) :
    (m.emplace k v).keys = insertKey k m.keys :=
  map_fst_putEntry false k v m.entries

@[simp]
theorem keys_empty : (empty : KeyMap V).keys = [] := rfl

theorem size_eq_length_keys (m : KeyMap V) : m.size = m.keys.length := by
  simp [size, keys]

theorem emplace_comm (m : KeyMap V) {a b : PublicKey} (hab : a ≠ b) (x y : V) :
    (m.emplace a x).emplace b y = (m.emplace b y).emplace a x := by
  simp only [emplace, mk.injEq]
  exact putEntry_comm (Ne.symm hab) y x m.entries

end KeyMap

end randpa_finality
