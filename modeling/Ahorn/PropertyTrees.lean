import Mathlib.Data.List.Basic

set_option autoImplicit false

/-!
# Property trees

A property tree holds a text and children under names, in their order and possibly several under the
same name. A path leads through the first child of each name.
-/
namespace Ahorn

inductive PropertyTree where
  | node (data : String) (children : List (String × PropertyTree))

namespace PropertyTree

def data : PropertyTree → String
  | node data _ => data

def children : PropertyTree → List (String × PropertyTree)
  | node _ children => children

def leaf (data : String) : PropertyTree := node data []

def add (t : PropertyTree) (key : String) (child : PropertyTree) : PropertyTree :=
  node t.data (t.children ++ [(key, child)])

def child? (key : String) (t : PropertyTree) : Option PropertyTree :=
  (t.children.find? (·.1 = key)).map (·.2)

def find? : List String → PropertyTree → Option PropertyTree
  | [], t => some t
  | key :: path, t => (t.child? key).bind (find? path)

/-- Change the first child of a name, which is added if there is none. -/
def updateChild (key : String) (f : PropertyTree → PropertyTree) :
    List (String × PropertyTree) → List (String × PropertyTree)
  | [] => [(key, f (leaf ""))]
  | (key', child) :: rest =>
    if key' = key then (key', f child) :: rest else (key', child) :: updateChild key f rest

def put (data : String) : List String → PropertyTree → PropertyTree
  | [], t => node data t.children
  | key :: path, t => node t.data (updateChild key (put data path) t.children)

def get (path : List String) (t : PropertyTree) : Except String String :=
  match t.find? path with
  | some child => .ok child.data
  | none => .error "No such node"

theorem exists_find?_updateChild (key : String) (f : PropertyTree → PropertyTree)
    (children : List (String × PropertyTree)) :
    ∃ child, (updateChild key f children).find? (·.1 = key) = some (key, f child) := by
  induction children with
  | nil =>
    refine ⟨leaf "", ?_⟩
    unfold updateChild
    rw [List.find?_cons_of_pos (by simp)]
  | cons entry rest ih =>
    obtain ⟨key', child⟩ := entry
    unfold updateChild
    by_cases hkey : key' = key
    · subst hkey
      rw [if_pos rfl, List.find?_cons_of_pos (by simp)]
      exact ⟨child, rfl⟩
    · rw [if_neg hkey, List.find?_cons_of_neg (by simpa using hkey)]
      exact ih

theorem exists_find?_put (data : String) (path : List String) (t : PropertyTree) :
    ∃ child, (t.put data path).find? path = some child ∧ child.data = data := by
  induction path generalizing t with
  | nil => exact ⟨_, rfl, rfl⟩
  | cons key path ih =>
    obtain ⟨child, hchild⟩ := exists_find?_updateChild key (put data path) t.children
    obtain ⟨leaf, hleaf, hdata⟩ := ih child
    refine ⟨leaf, ?_, hdata⟩
    have hfind : (t.put data (key :: path)).child? key = some (child.put data path) := by
      change Option.map (·.2) ((updateChild key (put data path) t.children).find? (·.1 = key)) = _
      rw [hchild]
      rfl
    unfold find?
    rw [hfind]
    exact hleaf

@[simp] theorem get_put (data : String) (path : List String) (t : PropertyTree) :
    (t.put data path).get path = .ok data := by
  obtain ⟨child, hfind, hdata⟩ := exists_find?_put data path t
  unfold get
  rw [hfind]
  exact congrArg Except.ok hdata

theorem get_of_children {s t : PropertyTree} {key text : String} {path : List String}
    {rest : List (String × PropertyTree)} (hs : s.get (key :: path) = .ok text)
    (h : t.children = s.children ++ rest) : t.get (key :: path) = .ok text := by
  cases hchild : s.child? key with
  | none =>
    unfold get find? at hs
    rw [hchild] at hs
    cases hs
  | some child =>
    have hsame : t.child? key = s.child? key := by
      obtain ⟨entry, hentry, -⟩ := Option.map_eq_some_iff.mp hchild
      unfold child?
      rw [h, List.find?_append, hentry]
      rfl
    unfold get find? at hs ⊢
    rw [hsame]
    exact hs

theorem children_foldl_add {α : Type} (f : α → String × PropertyTree) (l : List α)
    (t : PropertyTree) :
    (l.foldl (fun t x => t.add (f x).1 (f x).2) t).children = t.children ++ l.map f := by
  induction l generalizing t with
  | nil => exact (List.append_nil _).symm
  | cons x l ih =>
    rw [List.foldl_cons, ih]
    change (t.children ++ [f x]) ++ l.map f = _
    rw [List.append_assoc]
    rfl

end PropertyTree

end Ahorn
