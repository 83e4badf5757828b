import Mathlib.Data.BitVec
import TiiSel4Vm.Lib.Outline

/-!
# What `fdt.c` uses of libfdt

libfdt is not part of the repository, nor is `fdt_generate_memory_node`.  `Libfdt` is the functions
of theirs that `fdt.c` calls, on device trees of any type; `Correct` is what they are relied on for,
said of the nodes of a tree in document order.  Nothing is known of a tree after a failed call.

* `Appends.insertChild` — what is appended to a new node is there as if the node had been added with
  it;
* `documentLibfdt` — the functions on documents themselves, and `documentLibfdt_correct`.
-/

namespace TiiSel4Vm.Fdt

open TiiSel4Vm.Outlines

/-- A C string, without its NUL. -/
abbrev CString := List Char

abbrev Byte := BitVec 8

/-- `FDT_ERR_NOTFOUND`. -/
abbrev fdtErrNotfound : ℤ := 1

/-- `FDT_ERR_EXISTS`. -/
abbrev fdtErrExists : ℤ := 2

/-- `FDT_ERR_BADOFFSET`. -/
abbrev fdtErrBadoffset : ℤ := 4

/-- `FDT_ERR_INTERNAL`. -/
abbrev fdtErrInternal : ℤ := 13

/-- `FDT_ERR_NOPHANDLES`. -/
abbrev fdtErrNophandles : ℤ := 17

/-- The functions that `fdt.c` calls.  A function that writes gives its result and the tree. -/
structure Libfdt (T : Type) where
  pathOffset : T → CString → ℤ
  addressCells : T → ℤ → ℤ
  sizeCells : T → ℤ → ℤ
  addSubnode : T → ℤ → CString → ℤ × T
  appendpropString : T → ℤ → String → String → ℤ × T
  appendpropUint : T → ℤ → String → BitVec 64 → ℤ → ℤ × T
  appendpropU32 : T → ℤ → String → BitVec 32 → ℤ × T
  getMaxPhandle : T → BitVec 32
  getPhandle : T → ℤ → BitVec 32
  /-- `fdt_generate_memory_node` -/
  generateMemoryNode : T → BitVec 64 → BitVec 64 → ℤ × T

/-! ### Nodes -/

/-- A node: its name with the unit address, and its properties. -/
structure DtNode where
  name : CString
  prop : String → Option (List Byte)

/-- A cell in its big-endian bytes. -/
def fdt32 (x : BitVec 32) : List Byte :=
  [x.extractLsb' 24 8, x.extractLsb' 16 8, x.extractLsb' 8 8, x.extractLsb' 0 8]

/-- The value of a property of one cell. -/
def cell : List Byte → Option (BitVec 32)
  | [a, b, c, d] => some (a ++ b ++ c ++ d)
  | _ => none

/-- The phandle of a node, 0 if it has none. -/
def DtNode.phandle (n : DtNode) : BitVec 32 :=
  (((n.prop "phandle").bind cell).or ((n.prop "linux,phandle").bind cell)).getD 0#32

/-- The node with bytes appended to one of its properties. -/
def DtNode.append (n : DtNode) (key : String) (bytes : List Byte) : DtNode :=
  { n with prop := Function.update n.prop key (some ((n.prop key).getD [] ++ bytes)) }

/-- A node without properties. -/
def DtNode.new (name : CString) : DtNode := ⟨name, fun _ => none⟩

/-- What identifies a node: its name, and its phandle. -/
structure Label where
  name : CString
  phandle : BitVec 32
  deriving DecidableEq

def DtNode.label (n : DtNode) : Label := ⟨n.name, n.phandle⟩

theorem cell_fdt32 (x : BitVec 32) : cell (fdt32 x) = some x := by
  have happend : x.extractLsb' 24 8 ++ x.extractLsb' 16 8 ++ x.extractLsb' 8 8 ++ x.extractLsb' 0 8
      = x := by
    ext i hi
    simp only [BitVec.getElem_append, BitVec.getElem_extractLsb']
    grind
  exact congrArg some happend

/-- Other properties have no say in the phandle. -/
theorem label_append {key : String} (hkey : key ≠ "phandle") (hkey' : key ≠ "linux,phandle")
    (n : DtNode) (bytes : List Byte) : (n.append key bytes).label = n.label := by
  simp only [DtNode.label, DtNode.phandle, DtNode.append, Function.update_of_ne hkey.symm,
    Function.update_of_ne hkey'.symm]

/-- The first phandle of a node. -/
theorem label_append_phandle {n : DtNode} (h : n.prop "phandle" = none) (p : BitVec 32) :
    (n.append "phandle" (fdt32 p)).label = ⟨n.name, p⟩ := by
  simp [DtNode.label, DtNode.phandle, DtNode.append, h, cell_fdt32]

/-! ### Paths -/

/-- `fdt_nodename_eq_`: a name without a unit address stands for any. -/
def nodeNameEq (s name : CString) : Bool :=
  name = s || (!s.contains '@' && (s ++ ['@']).isPrefixOf name)

/-- The node that a path from the root leads to. -/
def lookup (l : Outline Label) (path : List CString) : Option ℕ :=
  descend l (path.map fun s n => nodeNameEq s n.name) 0

/-- The path as a string. -/
def pathString (path : List CString) : CString := path.flatMap ('/' :: ·)

/-- The names of a path that a string can stand for. -/
def ProperPath (path : List CString) : Prop := path ≠ [] ∧ ∀ s ∈ path, s ≠ [] ∧ '/' ∉ s

/-- A name with a unit address stands for itself. -/
theorem nodeNameEq_iff {s : CString} (h : '@' ∈ s) (name : CString) :
    nodeNameEq s name = true ↔ name = s := by
  simp [nodeNameEq, h]

theorem nodeNameEq_cons_ne {a b : Char} (h : b ≠ a) (s name : CString) :
    nodeNameEq (a :: s) (b :: name) = false := by
  simp [nodeNameEq, h, List.isPrefixOf, h.symm]

/-! ### Documents -/

def reservedMemory : CString := "reserved-memory".toList

/-- The labels of a document. -/
def labels (l : Outline DtNode) : Outline Label := l.map (Item.map DtNode.label)

/-- The phandles of a document. -/
def phandles (l : Outline Label) : List (BitVec 32) :=
  (l.map fun e => e.val.phandle).filter (· ≠ 0#32)

/-- The nodes under `/reserved-memory`, if there is such a node. -/
def reservedNodes (l : Outline Label) : Option (List Label) :=
  (lookup l [reservedMemory]).map (children l)

/-! ### What is relied on -/

section Relied

variable {T : Type}

/-- A call appended `bytes` to a property of the node at `off`, and the node still is at `off`. -/
def Appends (doc : T → Outline DtNode) (node : T → ℤ → Option ℕ) (t : T) (off : ℤ) (key : String)
    (bytes : List Byte) (t' : T) : Prop :=
  ∃ i, node t off = some i ∧ doc t' = modifyVal (doc t) i (·.append key bytes) ∧
    node t' off = some i

/-- The functions do what is documented of them; `doc` is what a tree holds and `node` says which
node begins at an offset. -/
structure Libfdt.Correct (lib : Libfdt T) (doc : T → Outline DtNode) (node : T → ℤ → Option ℕ) :
    Prop where
  node_lt : ∀ t off i, node t off = some i → i < (doc t).length
  found : ∀ t path i, ProperPath path → lookup (labels (doc t)) path = some i →
    0 ≤ lib.pathOffset t (pathString path) ∧
      node t (lib.pathOffset t (pathString path)) = some i
  missing : ∀ t path, ProperPath path → lookup (labels (doc t)) path = none →
    lib.pathOffset t (pathString path) < 0
  /-- a name that is taken is refused, and the new node is the first child -/
  add_subnode : ∀ t off name, 0 ≤ (lib.addSubnode t off name).1 →
    ∃ i, node t off = some i ∧ (∀ n ∈ children (doc t) i, n.name ≠ name) ∧
      doc (lib.addSubnode t off name).2 = insertChild (doc t) i (.new name) ∧
      node (lib.addSubnode t off name).2 (lib.addSubnode t off name).1 = some (i + 1)
  append_string : ∀ t off key s, (lib.appendpropString t off key s).1 ≤ 0 ∧
    ((lib.appendpropString t off key s).1 = 0 →
      ∃ bytes, Appends doc node t off key bytes (lib.appendpropString t off key s).2)
  append_uint : ∀ t off key x cells, (lib.appendpropUint t off key x cells).1 ≤ 0 ∧
    ((lib.appendpropUint t off key x cells).1 = 0 →
      ∃ bytes, Appends doc node t off key bytes (lib.appendpropUint t off key x cells).2)
  append_u32 : ∀ t off key x, (lib.appendpropU32 t off key x).1 ≤ 0 ∧
    ((lib.appendpropU32 t off key x).1 = 0 →
      Appends doc node t off key (fdt32 x) (lib.appendpropU32 t off key x).2)
  get_phandle : ∀ t off i e, node t off = some i → (doc t)[i]? = some e →
    lib.getPhandle t off = e.val.phandle
  /-- `(uint32_t)-1` reports an error, and is no phandle -/
  max_phandle : ∀ t, lib.getMaxPhandle t ≠ -1#32 → ∀ e ∈ doc t,
    e.val.phandle ≤ lib.getMaxPhandle t ∨ e.val.phandle = -1#32
  memory_node : ∀ t base size, (lib.generateMemoryNode t base size).1 = 0 →
    (phandles (labels (doc (lib.generateMemoryNode t base size).2))).Perm
        (phandles (labels (doc t))) ∧
      reservedNodes (labels (doc (lib.generateMemoryNode t base size).2))
        = reservedNodes (labels (doc t))

variable {lib : Libfdt T} {doc : T → Outline DtNode} {node : T → ℤ → Option ℕ}

/-! A call that succeeds has appended. -/

theorem Libfdt.Correct.string_appends (h : lib.Correct doc node) {t t' : T} {off : ℤ}
    {key s : String} (hcall : lib.appendpropString t off key s = (0, t')) :
    ∃ bytes, Appends doc node t off key bytes t' := by
  have happend := (h.append_string t off key s).2
  rw [hcall] at happend
  exact happend rfl

theorem Libfdt.Correct.uint_appends (h : lib.Correct doc node) {t t' : T} {off : ℤ} {key : String}
    {x : BitVec 64} {cells : ℤ} (hcall : lib.appendpropUint t off key x cells = (0, t')) :
    ∃ bytes, Appends doc node t off key bytes t' := by
  have happend := (h.append_uint t off key x cells).2
  rw [hcall] at happend
  exact happend rfl

theorem Libfdt.Correct.u32_appends (h : lib.Correct doc node) {t t' : T} {off : ℤ} {key : String}
    {x : BitVec 32} (hcall : lib.appendpropU32 t off key x = (0, t')) :
    Appends doc node t off key (fdt32 x) t' := by
  have happend := (h.append_u32 t off key x).2
  rw [hcall] at happend
  exact happend rfl

/-- What is appended to a new child. -/
theorem Appends.insertChild {t t' : T} {off : ℤ} {key : String} {bytes : List Byte}
    {l : Outline DtNode} {i : ℕ} {e : Item DtNode} {n : DtNode}
    (h : Appends doc node t off key bytes t') (hi : l[i]? = some e)
    (hdoc : doc t = Outlines.insertChild l i n) (hnode : node t off = some (i + 1)) :
    doc t' = Outlines.insertChild l i (n.append key bytes) ∧ node t' off = some (i + 1) := by
  obtain ⟨j, hj, hdoc', hnode'⟩ := h
  rw [hnode] at hj
  cases hj
  refine ⟨?_, hnode'⟩
  rw [hdoc', hdoc, modifyVal_insertChild hi]

/-- What is appended to a property that is no phandle does not change a label. -/
theorem Appends.labels_eq {t t' : T} {off : ℤ} {key : String} {bytes : List Byte}
    (h : Appends doc node t off key bytes t') (hkey : key ≠ "phandle")
    (hkey' : key ≠ "linux,phandle") : labels (doc t') = labels (doc t) := by
  obtain ⟨i, -, hdoc, -⟩ := h
  rw [hdoc, labels, modifyVal_map fun n => label_append hkey hkey' n bytes, labels]

theorem Libfdt.Correct.get_label (h : lib.Correct doc node) {t : T} {off : ℤ} {i : ℕ} {d : ℕ}
    {x : Label} (hnode : node t off = some i) (hget : (labels (doc t))[i]? = some ⟨d, x⟩) :
    lib.getPhandle t off = x.phandle := by
  rw [labels, List.getElem?_map, Option.map_eq_some_iff] at hget
  obtain ⟨e, he, hlabel⟩ := hget
  rw [h.get_phandle t off i e hnode he]
  exact congrArg (fun e => e.val.phandle) hlabel

end Relied

/-! ### The functions on documents -/

/-- The names of a path. -/
def pathNames (path : CString) : List CString := (path.splitOn '/').filter (· ≠ [])

/-- `fdt_add_subnode`. -/
def addSubnode (l : Outline DtNode) (off : ℤ) (name : CString) : ℤ × Outline DtNode :=
  if 0 ≤ off ∧ off.toNat < l.length then
    if (child? (fun n => nodeNameEq name n.name) l off.toNat).isSome then (-fdtErrExists, l)
    else ((off.toNat + 1 : ℕ), insertChild l off.toNat (.new name))
  else (-fdtErrBadoffset, l)

/-- `fdt_appendprop`. -/
def appendprop (l : Outline DtNode) (off : ℤ) (key : String) (bytes : List Byte) :
    ℤ × Outline DtNode :=
  if 0 ≤ off ∧ off.toNat < l.length then (0, modifyVal l off.toNat (·.append key bytes))
  else (-fdtErrBadoffset, l)

def maxPhandle : Outline DtNode → BitVec 32
  | [] => 0#32
  | e :: l => if maxPhandle l ≤ e.val.phandle then e.val.phandle else maxPhandle l

/-- A value in cells. -/
def cells (x : BitVec 64) (n : ℤ) : List Byte :=
  if n = 2 then fdt32 (x.extractLsb' 32 32) ++ fdt32 (x.extractLsb' 0 32)
  else fdt32 (x.extractLsb' 0 32)

/-- A memory node is a new first child of the root. -/
def generateMemoryNode (l : Outline DtNode) (base size : BitVec 64) : ℤ × Outline DtNode :=
  match l with
  | [] => (-1, [])
  | _ :: _ =>
      (0, insertChild l 0 (((DtNode.new ("memory@".toList ++ Nat.toDigits 16 base.toNat)).append
        "reg" (cells base 2)).append "reg" (cells size 2)))

/-- The functions on documents; an offset is a position. -/
def documentLibfdt : Libfdt (Outline DtNode) where
  pathOffset l path :=
    match lookup (labels l) (pathNames path) with
    | some i => i
    | none => -fdtErrNotfound
  addressCells _ _ := 2
  sizeCells _ _ := 2
  addSubnode := addSubnode
  appendpropString l off key s :=
    appendprop l off key (s.toList.map (fun c => BitVec.ofNat 8 c.toNat) ++ [0#8])
  appendpropUint l off key x n := appendprop l off key (cells x n)
  appendpropU32 l off key x := appendprop l off key (fdt32 x)
  getMaxPhandle := maxPhandle
  getPhandle l off := (l[off.toNat]?.map fun e => e.val.phandle).getD 0#32
  generateMemoryNode := generateMemoryNode

/-- The node at a position. -/
def documentNode (l : Outline DtNode) (off : ℤ) : Option ℕ :=
  if 0 ≤ off ∧ off.toNat < l.length then some off.toNat else none

theorem documentNode_eq_some {l : Outline DtNode} {off : ℤ} {i : ℕ} :
    documentNode l off = some i ↔ off = i ∧ i < l.length := by
  unfold documentNode
  split
  · rw [Option.some.injEq]
    omega
  · constructor
    · intro h
      cases h
    · intro h
      omega

theorem append_pathString (s : CString) (path : List CString) :
    s ++ pathString path = List.intercalate ['/'] (s :: path) := by
  induction path generalizing s with
  | nil =>
      rw [List.intercalate_singleton]
      exact List.append_nil s
  | cons s' path ih =>
      rw [List.intercalate_cons_cons, ← ih s', pathString, List.flatMap_cons, ← pathString]
      simp

theorem pathNames_pathString {path : List CString} (h : ProperPath path) :
    pathNames (pathString path) = path := by
  have hjoin : pathString path = List.intercalate ['/'] ([] :: path) := append_pathString [] path
  rw [pathNames, hjoin, List.splitOn_intercalate]
  · rw [List.filter_cons_of_neg (by simp), List.filter_eq_self]
    intro s hs
    simpa using (h.2 s hs).1
  · intro s hs
    rcases List.mem_cons.mp hs with rfl | hs
    · exact List.not_mem_nil
    · exact (h.2 s hs).2
  · exact List.cons_ne_nil _ _

theorem le_maxPhandle {l : Outline DtNode} {e : Item DtNode} (h : e ∈ l) :
    e.val.phandle ≤ maxPhandle l := by
  induction l with
  | nil => exact absurd h List.not_mem_nil
  | cons a l ih =>
      rw [maxPhandle]
      rcases List.mem_cons.mp h with rfl | h
      · split <;> bv_omega
      · have hle := ih h
        split <;> bv_omega

theorem appendprop_appends {l : Outline DtNode} {off : ℤ} {key : String} {bytes : List Byte} :
    (appendprop l off key bytes).1 ≤ 0 ∧ ((appendprop l off key bytes).1 = 0 →
      Appends id documentNode l off key bytes (appendprop l off key bytes).2) := by
  unfold appendprop
  split
  · rename_i h
    refine ⟨le_rfl, fun _ => ⟨off.toNat, ?_, rfl, ?_⟩⟩
    · exact documentNode_eq_some.mpr ⟨by omega, h.2⟩
    · exact documentNode_eq_some.mpr ⟨by omega, by simpa [modifyVal] using h.2⟩
  · have hneg : -fdtErrBadoffset < 0 := by decide
    exact ⟨hneg.le, fun h => absurd h hneg.ne⟩

/-- A new child of the root that `/reserved-memory` is no match for. -/
theorem reservedNodes_insertChild {l : Outline Label} {e : Item Label} {x : Label}
    (h : l[0]? = some e) (hx : nodeNameEq reservedMemory x.name = false) :
    reservedNodes (insertChild l 0 x) = reservedNodes l := by
  have hlookup : ∀ l, lookup l [reservedMemory]
      = child? (fun n => nodeNameEq reservedMemory n.name) l 0 := fun l => descend_singleton l _ 0
  rw [reservedNodes, reservedNodes, hlookup, hlookup, child?_insertChild_self h hx, Option.map_map]
  cases hchild : child? (fun n => nodeNameEq reservedMemory n.name) l 0 with
  | none => rfl
  | some j =>
      have hj := (child?_some hchild).1
      exact congrArg some (children_insertChild_succ h x hj)

theorem phandles_insertChild {l : Outline Label} {i : ℕ} {e : Item Label} (h : l[i]? = some e)
    (x : Label) :
    (phandles (insertChild l i x)).Perm
      (if x.phandle = 0#32 then phandles l else x.phandle :: phandles l) := by
  have hperm := ((insertChild_perm h x).map fun e => e.val.phandle).filter (· ≠ 0#32)
  rw [List.map_cons] at hperm
  refine hperm.trans ?_
  by_cases hx : x.phandle = 0#32
  · rw [if_pos hx, List.filter_cons_of_neg (by simpa using hx)]
    rfl
  · rw [if_neg hx, List.filter_cons_of_pos (by simpa using hx)]
    rfl

theorem addSubnode_spec {l : Outline DtNode} {off : ℤ} {name : CString}
    (h : 0 ≤ (addSubnode l off name).1) :
    ∃ i, documentNode l off = some i ∧ (∀ n ∈ children l i, n.name ≠ name) ∧
      (addSubnode l off name).2 = insertChild l i (.new name) ∧
      documentNode (addSubnode l off name).2 (addSubnode l off name).1 = some (i + 1) := by
  unfold addSubnode at h ⊢
  split at h
  · rename_i hoff
    split at h
    · have hneg : ¬ (0 : ℤ) ≤ -fdtErrExists := by decide
      exact absurd h hneg
    · rename_i hchild
      obtain ⟨e, he⟩ : ∃ e, l[off.toNat]? = some e := ⟨_, List.getElem?_eq_getElem hoff.2⟩
      rw [Option.not_isSome_iff_eq_none] at hchild
      rw [if_pos hoff, if_neg (by rw [hchild]; exact Bool.false_ne_true)]
      refine ⟨off.toNat, documentNode_eq_some.mpr ⟨by omega, hoff.2⟩, fun n hn hname => ?_, rfl, ?_⟩
      · refine List.find?_eq_none.mp (child?_none hchild) n hn ?_
        simp [nodeNameEq, hname]
      · have hlt := (List.getElem?_eq_some_iff.mp (getElem?_insertChild he (.new name))).1
        exact documentNode_eq_some.mpr ⟨rfl, hlt⟩
  · have hneg : ¬ (0 : ℤ) ≤ -fdtErrBadoffset := by decide
    exact absurd h hneg

theorem generateMemoryNode_spec {l : Outline DtNode} {base size : BitVec 64} :
    (phandles (labels (generateMemoryNode l base size).2)).Perm (phandles (labels l)) ∧
      reservedNodes (labels (generateMemoryNode l base size).2) = reservedNodes (labels l) := by
  cases l with
  | nil => exact ⟨.rfl, rfl⟩
  | cons e l =>
      have hlabel : (((DtNode.new ("memory@".toList ++ Nat.toDigits 16 base.toNat)).append
          "reg" (cells base 2)).append "reg" (cells size 2)).label
            = ⟨"memory@".toList ++ Nat.toDigits 16 base.toNat, 0#32⟩ := by
        rw [label_append (by decide) (by decide), label_append (by decide) (by decide)]
        rfl
      have hget : (labels (e :: l))[0]? = some (e.map DtNode.label) := rfl
      have hmatch : nodeNameEq reservedMemory ("memory@".toList ++ Nat.toDigits 16 base.toNat)
          = false := by
        exact nodeNameEq_cons_ne (by decide) "eserved-memory".toList _
      rw [generateMemoryNode, labels, insertChild_map, hlabel, ← labels]
      exact ⟨phandles_insertChild hget _, reservedNodes_insertChild hget hmatch⟩

theorem documentLibfdt_correct : documentLibfdt.Correct id documentNode where
  node_lt l off i h := (documentNode_eq_some.mp h).2
  found l path i hpath h := by
    have hlt : i < l.length := by
      have hps : (path.map fun s (n : Label) => nodeNameEq s n.name) ≠ [] := by
        simpa using hpath.1
      simpa [labels] using lt_length_of_descend hps h
    have hoffset : documentLibfdt.pathOffset l (pathString path) = i := by
      simp [documentLibfdt, pathNames_pathString hpath, show lookup (labels l) path = _ from h]
    rw [hoffset]
    exact ⟨Int.natCast_nonneg i, documentNode_eq_some.mpr ⟨rfl, hlt⟩⟩
  missing l path hpath h := by
    simp [documentLibfdt, pathNames_pathString hpath, show lookup (labels l) path = none from h]
  add_subnode l off name h := addSubnode_spec h
  append_string _ _ _ _ := ⟨appendprop_appends.1, fun h => ⟨_, appendprop_appends.2 h⟩⟩
  append_uint _ _ _ _ _ := ⟨appendprop_appends.1, fun h => ⟨_, appendprop_appends.2 h⟩⟩
  append_u32 _ _ _ _ := appendprop_appends
  get_phandle l off i e hnode he := by
    obtain ⟨rfl, -⟩ := documentNode_eq_some.mp hnode
    simp [documentLibfdt, show l[i]? = some e from he]
  max_phandle _ _ _ he := Or.inl (le_maxPhandle he)
  memory_node _ _ _ _ := generateMemoryNode_spec

end TiiSel4Vm.Fdt
