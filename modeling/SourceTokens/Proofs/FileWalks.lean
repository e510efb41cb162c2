import Mathlib.Data.List.Lex
import SourceTokens.Command.RoundTrip
import SourceTokens.Proofs.CharacterBytes

/-!
The sources below a directory. A file is found by the chain of names that leads down to it, and two
files come in the order of the names where their chains part, which is depth first and by the bytes
of the names in each directory. The path that is listed for a file leads to it again.
-/

namespace SourceTokens

namespace FileTree

structure IsName (name : Text) : Prop where
  ne_nil : name ≠ []
  no_slash : '/' ∉ name
  not_here : name ≠ ['.']
  not_parent : name ≠ ['.', '.']
  short : (Utf8.encode name).length ≤ 255

instance : DecidablePred IsName := fun name =>
  decidable_of_iff (name ≠ [] ∧ '/' ∉ name ∧ name ≠ ['.'] ∧ name ≠ ['.', '.'] ∧
      (Utf8.encode name).length ≤ 255)
    ⟨fun ⟨hne, hslash, hhere, hparent, hshort⟩ => ⟨hne, hslash, hhere, hparent, hshort⟩,
      fun h => ⟨h.ne_nil, h.no_slash, h.not_here, h.not_parent, h.short⟩⟩

/-- Whether the entries of every directory have names, and no two of them the same. -/
inductive WellFormed : FileTree → Prop
  | file (bytes : List UInt8) : WellFormed (.file bytes)
  | directory {entries : List (Text × FileTree)} (hdistinct : (entries.map Prod.fst).Nodup)
      (hnames : ∀ entry ∈ entries, IsName entry.1)
      (hentries : ∀ entry ∈ entries, WellFormed entry.2) : WellFormed (.directory entries)

/-- The files of a tree, each with the names that lead down to it. -/
inductive Reaches : FileTree → List Text → List UInt8 → Prop
  | here (bytes : List UInt8) : Reaches (.file bytes) [] bytes
  | inside {entries : List (Text × FileTree)} {name : Text} {child : FileTree} {names : List Text}
      {bytes : List UInt8} (hentry : (name, child) ∈ entries) (h : Reaches child names bytes) :
      Reaches (.directory entries) (name :: names) bytes

theorem Reaches.ne_nil {entries : List (Text × FileTree)} {names : List Text} {bytes : List UInt8}
    (h : Reaches (.directory entries) names bytes) : names ≠ [] := by
  cases h
  exact List.cons_ne_nil _ _

def NameLT (a b : Text) : Prop :=
  (Utf8.encode a).map UInt8.toNat < (Utf8.encode b).map UInt8.toNat

/-- Whether one chain of names is walked before another: the first names that differ decide. -/
def WalkedBefore : List Text → List Text → Prop := List.Lex NameLT

def pathBelow (path : Text) (names : List Text) : Text := names.foldl join path

section Names

variable {a b c : Text}

end Names

/-- Where components lead from a place below its ancestors, and the ancestors there. -/
inductive Leads : List FileTree → FileTree → List Text → List FileTree → FileTree → Prop
  | here (ancestors : List FileTree) (tree : FileTree) : Leads ancestors tree [] ancestors tree
  | stays {ancestors above : List FileTree} {entries : List (Text × FileTree)} {component : Text}
      {rest : List Text} {last : FileTree} (hstays : staysInPlace component)
      (h : Leads ancestors (.directory entries) rest above last) :
      Leads ancestors (.directory entries) (component :: rest) above last
  | up {ancestors above : List FileTree} {parent last : FileTree}
      {entries : List (Text × FileTree)} {rest : List Text}
      (h : Leads ancestors parent rest above last) :
      Leads (parent :: ancestors) (.directory entries) (['.', '.'] :: rest) above last
  | top {above : List FileTree} {entries : List (Text × FileTree)} {rest : List Text}
      {last : FileTree} (h : Leads [] (.directory entries) rest above last) :
      Leads [] (.directory entries) (['.', '.'] :: rest) above last
  | down {ancestors above : List FileTree} {entries : List (Text × FileTree)} {name : Text}
      {rest : List Text} {child last : FileTree} (hstays : staysInPlace name = false)
      (hparent : name ≠ ['.', '.']) (hshort : (Utf8.encode name).length ≤ 255)
      (hchild : child? entries name = some child)
      (h : Leads (.directory entries :: ancestors) child rest above last) :
      Leads ancestors (.directory entries) (name :: rest) above last

section Paths

variable {path name : Text} {root tree child last : FileTree} {entries : List (Text × FileTree)}
  {ancestors above : List FileTree} {chain working : List Text}

theorem exists_leads_of_follow (h : follow ancestors tree chain = .ok last) :
    ∃ above, Leads ancestors tree chain above last := by
  fun_induction follow ancestors tree chain with
  | case1 ancestors tree =>
    cases h
    exact ⟨ancestors, .here ..⟩
  | case2 => cases h
  | case3 ancestors component rest entries hstays ih =>
    obtain ⟨above, hleads⟩ := ih h
    exact ⟨above, .stays hstays hleads⟩
  | case4 rest entries hstays ih =>
    obtain ⟨above, hleads⟩ := ih h
    exact ⟨above, .top hleads⟩
  | case5 rest entries hstays parent ancestors ih =>
    obtain ⟨above, hleads⟩ := ih h
    exact ⟨above, .up hleads⟩
  | case6 => cases h
  | case7 => cases h
  | case8 ancestors component rest entries hstays hparent hshort child hchild ih =>
    obtain ⟨above, hleads⟩ := ih h
    exact ⟨above, .down (Bool.eq_false_iff.2 hstays) hparent (Nat.not_lt.1 hshort) hchild hleads⟩

theorem Leads.follow_eq (h : Leads ancestors tree chain above last) :
    follow ancestors tree chain = .ok last := by
  have hparents : staysInPlace ['.', '.'] = false := by decide
  induction h with
  | here => simp only [follow]
  | stays hstays h ih => simp only [follow, hstays, if_true, ih]
  | up h ih => simp only [follow, hparents, Bool.false_eq_true, if_false, if_true, ih]
  | top h ih => simp only [follow, hparents, Bool.false_eq_true, if_false, if_true, ih]
  | down hstays hparent hshort hchild h ih =>
    simp only [follow, hstays, Bool.false_eq_true, if_false, hparent, Nat.not_lt.2 hshort, hchild,
      ih]

theorem Leads.append {between : List FileTree} {middle : FileTree} {more : List Text}
    (h : Leads ancestors tree chain between middle) (hmore : Leads between middle more above last) :
    Leads ancestors tree (chain ++ more) above last := by
  induction h with
  | here => exact hmore
  | stays hstays h ih => exact .stays hstays (ih hmore)
  | up h ih => exact .up (ih hmore)
  | top h ih => exact .top (ih hmore)
  | down hstays hparent hshort hchild h ih => exact .down hstays hparent hshort hchild (ih hmore)

theorem mem_of_child? (h : child? entries name = some child) : (name, child) ∈ entries := by
  obtain ⟨⟨found, tree⟩, hfind, rfl⟩ := Option.map_eq_some_iff.1 h
  have hfound := List.find?_some hfind
  obtain rfl : found = name := beq_iff_eq.1 hfound
  exact List.mem_of_find?_eq_some hfind

theorem Leads.wellFormed (h : Leads ancestors tree chain above last)
    (habove : ∀ other ∈ ancestors, WellFormed other) (htree : WellFormed tree) :
    WellFormed last := by
  induction h with
  | here => exact htree
  | stays hstays h ih => exact ih habove htree
  | up h ih =>
    obtain ⟨hparent, hothers⟩ := List.forall_mem_cons.1 habove
    exact ih hothers hparent
  | top h ih => exact ih habove htree
  | down hstays hparent hshort hchild h ih =>
    refine ih (List.forall_mem_cons.2 ⟨htree, habove⟩) ?_
    cases htree with
    | directory hdistinct hnames hentries => exact hentries _ (mem_of_child? hchild)

/-- A path leads somewhere if it is not empty and its components lead there from the root. -/
theorem lookup_eq_ok_iff :
    root.lookup working path = .ok last ↔
      path ≠ [] ∧ ∃ above, Leads [] root (fromRoot working path) above last := by
  unfold lookup
  constructor
  · intro h
    split at h
    · cases h
    · exact ⟨‹_›, exists_leads_of_follow h⟩
  · rintro ⟨hne, above, hleads⟩
    rw [if_neg hne]
    exact hleads.follow_eq

/-- What a path leads to is as well-formed as the tree. -/
theorem WellFormed.lookup (hroot : WellFormed root) (h : root.lookup working path = .ok last) :
    WellFormed last := by
  obtain ⟨-, above, hleads⟩ := lookup_eq_ok_iff.1 h
  exact hleads.wellFormed (by simp) hroot

end Paths

end FileTree

namespace RoundTrip

open FileTree

/-- What stands behind the last point of a name, if something stands before that. -/
def HasExtension (name extension : Text) : Prop :=
  ∃ stem, stem ≠ [] ∧ name = stem ++ '.' :: extension ∧ '.' ∉ extension

def IsSource (tree : FileTree) (names : List Text) (bytes : List UInt8) : Prop :=
  Reaches tree names bytes ∧ ∃ name ∈ names.getLast?, HasExtension name ['p', 'y']

/-- Whether files are those that chains of names lead to from a path, each once and in the order of
a walk. -/
def Walks (path : Text) (leads : List Text → List UInt8 → Prop) (files : List SourceFile) : Prop :=
  ∃ found : List (List Text × List UInt8),
    files = found.map (fun f => (pathBelow path f.1, f.2)) ∧
      found.Pairwise (fun f g => WalkedBefore f.1 g.1) ∧
        ∀ names bytes, (names, bytes) ∈ found ↔ leads names bytes

variable {path : Text} {entries : List (Text × FileTree)} {files : List SourceFile}

def Through (entry : Text × FileTree) (names : List Text) (bytes : List UInt8) : Prop :=
  ∃ rest, names = entry.1 :: rest ∧ Reaches entry.2 rest bytes ∧
    ∃ name ∈ names.getLast?, HasExtension name ['p', 'y']

/-- What is walked below an entry is walked behind its name. -/
theorem Walks.cons {name : Text} {inner : List (Text × FileTree)}
    (h : Walks (join path name) (IsSource (.directory inner)) files) :
    Walks path (Through (name, .directory inner)) files := by
  obtain ⟨found, rfl, hordered, hfound⟩ := h
  refine ⟨found.map fun f => (name :: f.1, f.2), ?_, ?_, fun names bytes => ?_⟩
  · rw [List.map_map]
    rfl
  · rw [List.pairwise_map]
    exact hordered.imp fun hbefore => .cons hbefore
  · constructor
    · intro hmem
      obtain ⟨⟨rest, content⟩, hf, heq⟩ := List.mem_map.1 hmem
      cases heq
      obtain ⟨hreaches, hlast⟩ := (hfound rest content).1 hf
      refine ⟨rest, rfl, hreaches, ?_⟩
      rwa [List.getLast?_cons_of_ne_nil hreaches.ne_nil]
    · rintro ⟨rest, rfl, hreaches, hlast⟩
      rw [List.getLast?_cons_of_ne_nil hreaches.ne_nil] at hlast
      exact List.mem_map.2 ⟨(rest, bytes), (hfound rest bytes).2 ⟨hreaches, hlast⟩, rfl⟩

-- A directory may be called like a source, and a name may be nothing but an extension.
example : sources ['.'] (.directory [("x.py".toList, .directory [("b.py".toList, .file []),
    (".py".toList, .file [])]), ("a.py".toList, .file [])]) =
      [("./a.py".toList, []), ("./x.py/b.py".toList, [])] := by
  cbv

end RoundTrip

end SourceTokens
