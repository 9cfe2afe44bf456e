-- The prefix chain tree (spec 4.1). Its header is not among the sources, so each
-- operation is modelled from the spec. Nodes live in a store and are named by
-- their place in it, as the C++ code names them by pointer: a round keeps its best
-- node by place, and a node cut off by `set_root` still exists.
import Randpa.Messages

namespace randpa_finality

/-- Modelled from the spec: `prefix_node<prevote_msg>` of `prefix_chain_tree.hpp`. A node
keeps the place of the node it was inserted under. -/
structure PrefixNode where
  blockId : BlockId
  parent : Option Nat
  creatorKey : PublicKey
  activeBpKeys : KeySet
  confirmationData : KeyMap PrevoteMsg
deriving DecidableEq, Repr

instance : Inhabited PrefixNode := ⟨⟨BlockId.zero, none, 0, KeySet.empty, KeyMap.empty⟩⟩

/-- The node without its prevotes: what `add_confirmations` and `remove_confirmations`
leave alone. -/
def PrefixNode.erase (n : PrefixNode) : PrefixNode := { n with confirmationData := KeyMap.empty }

/-- `has_confirmation(key)`: the node holds a prevote of `key`. -/
def PrefixNode.hasConfirmation (n : PrefixNode) (k : PublicKey) : Bool :=
  k ∈ n.confirmationData.keys

/-- Modelled from the spec: `prefix_chain_tree` of `prefix_chain_tree.hpp`. The nodes in
order of creation, the place of the root, and the place of the last node each creator
inserted. -/
structure PrefixChainTree where
  nodes : List PrefixNode
  root : Nat
  lastInserted : KeyMap Nat
  root_lt : root < nodes.length
deriving DecidableEq

namespace PrefixChainTree

variable (t : PrefixChainTree)

/-- A tree of one root node with id `id`. -/
def single (id : BlockId) : PrefixChainTree :=
  ⟨[{ (default : PrefixNode) with blockId := id }], 0, KeyMap.empty, by simp⟩

/-- The node at place `h`, as the pointer `h` reads it. -/
def nodeAt (h : Nat) : PrefixNode := t.nodes.getD h default

def parentOf (h : Nat) : Option Nat := (t.nodeAt h).parent

def blockIdOf (h : Nat) : BlockId := (t.nodeAt h).blockId

/-- `get_root()->block_id`. -/
def rootId : BlockId := t.blockIdOf t.root

/-- The walk up the parent links from `h` meets `a` within `fuel` steps. -/
def reachesIn (a : Nat) : Nat → Nat → Bool
  | 0, _ => false
  | fuel + 1, h => h == a || match t.parentOf h with
    | some p => reachesIn a fuel p
    | none => false

/-- `a` is `h` or lies above it. A walk that meets `a` meets it within as many steps as
there are nodes. -/
def isAncestor (a h : Nat) : Bool := t.reachesIn a t.nodes.length h

/-- `h` is a node of the tree: it is the root or lies below it. -/
def inTree (h : Nat) : Bool := t.isAncestor t.root h

/-- `find(block_id)`: the first node of the tree, in order of creation, with that id. -/
def find (id : BlockId) : Option Nat :=
  (List.range t.nodes.length).find? fun h => t.blockIdOf h == id && t.inTree h

/-- The confirmations held at node `h` itself. -/
def confCount (h : Nat) : Nat := (t.nodeAt h).confirmationData.size

theorem find_lt {id : BlockId} {h : Nat} (hf : t.find id = some h) : h < t.nodes.length :=
  List.mem_range.1 (List.mem_of_find?_eq_some hf)

/-- `confirmation_number()`: the confirmations at `h` and at every node below it, which
is the spec's recursion over the children summed out. -/
def confirmationNumber (h : Nat) : Nat :=
  (((List.range t.nodes.length).filter (t.isAncestor h)).map t.confCount).sum

/-- The ids on the way from the child of the root down to `h`, put before `acc`. -/
def branchUp : Nat → Nat → List BlockId → List BlockId
  | 0, _, acc => acc
  | fuel + 1, h, acc =>
    if h = t.root then acc
    else match t.parentOf h with
      | some p => branchUp fuel p (t.blockIdOf h :: acc)
      | none => acc

/-- `get_branch(block_id)`: the root and the path from its child down to the block. -/
def getBranch (id : BlockId) : ChainType :=
  ⟨t.rootId, match t.find id with
    | some h => t.branchUp t.nodes.length h []
    | none => []⟩

/-- How far below the root node `h` lies. -/
def depth (h : Nat) : Nat := (t.branchUp t.nodes.length h []).length

/-- `get_head()`: the deepest node of the tree, the first created among equals. -/
def getHead : Nat :=
  (List.range t.nodes.length).foldl
    (fun best h => if t.inTree h && t.depth best < t.depth h then h else best) t.root

/-- `get_last_inserted_block(creator_key)`: the last node the creator inserted, while it
is still in the tree. -/
def getLastInsertedBlock (k : PublicKey) : Option Nat :=
  match t.lastInserted.find? k with
  | some h => if t.inTree h then some h else none
  | none => none

/-- The place of a child of `h` with id `id`. -/
def childWithId (h : Nat) (id : BlockId) : Option Nat :=
  (List.range t.nodes.length).find? fun c => t.parentOf c == some h && t.blockIdOf c == id

/-- A new node at the end of the store. -/
def push (n : PrefixNode) : PrefixChainTree :=
  { t with nodes := t.nodes ++ [n], root_lt := by simp; exact Nat.lt_succ_of_lt t.root_lt }

end PrefixChainTree

/-- Put the blocks of a path below node `h`, each below the one before; a block that is
already a child there is passed through, not made again. -/
def insertBlocks (creator : PublicKey) (active : KeySet) :
    Nat → List BlockId → PrefixChainTree → PrefixChainTree
  | _, [], t => t
  | h, b :: bs, t =>
    match t.childWithId h b with
    | some c => insertBlocks creator active c bs t
    | none =>
      insertBlocks creator active t.nodes.length bs
        { t.push ⟨b, some h, creator, active, KeyMap.empty⟩ with
          lastInserted := t.lastInserted.assign creator t.nodes.length }

namespace PrefixChainTree

variable (t : PrefixChainTree)

/-- `insert(chain, creator_key, active_bp_keys)`; `none` is the `NodeNotFoundError` it
throws when the base block is not in the tree. -/
def insert (chain : ChainType) (creator : PublicKey) (active : KeySet) :
    Option PrefixChainTree :=
  (t.find chain.baseBlock).map fun h => insertBlocks creator active h chain.blocks t

/-- Change the confirmations of node `h`. -/
def modifyConf (h : Nat) (f : KeyMap PrevoteMsg → KeyMap PrevoteMsg) : PrefixChainTree :=
  { t with
    nodes := t.nodes.modify (fun n => { n with confirmationData := f n.confirmationData }) h
    root_lt := by simpa using t.root_lt }

/-- The node a prevote for `chain` lands on: the last block of the path that is in the
tree, or else the base block. -/
def confirmationTarget (chain : ChainType) : Option Nat :=
  match chain.blocks.reverse.find? (fun b => (t.find b).isSome) with
  | some b => t.find b
  | none => t.find chain.baseBlock

/-- `add_confirmations(chain, key, conf)`: the node the prevote lands on takes it, unless
it holds a prevote of `key`; the node is returned. -/
def addConfirmations (chain : ChainType) (k : PublicKey) (conf : PrevoteMsg) :
    PrefixChainTree × Option Nat :=
  match t.confirmationTarget chain with
  | some h => (t.modifyConf h (·.emplace k conf), some h)
  | none => (t, none)

/-- `remove_confirmations()`: no node holds a prevote. -/
def removeConfirmations : PrefixChainTree :=
  { t with
    nodes := t.nodes.map fun n => { n with confirmationData := KeyMap.empty }
    root_lt := by simpa using t.root_lt }

/-- `set_root(node)`: the node becomes the root, and what is not below it is cut off. -/
def setRoot (h : Nat) (hh : h < t.nodes.length) : PrefixChainTree := { t with root := h, root_lt := hh }

/-- `set_root` of a new node `tree_node{ lib_id }`: a tree of that one node. -/
def setFreshRoot (id : BlockId) : PrefixChainTree :=
  let fresh : PrefixNode := { (default : PrefixNode) with blockId := id }
  { t.push fresh with root := t.nodes.length, root_lt := by simp [push] }

end PrefixChainTree

end randpa_finality
