import Redline.Text.Cluster

/-! # Backspaces

A backspace in a text removes itself and the grapheme cluster before it.  The text that is kept
comes with a stack of the sizes of its clusters in UTF-8, each stored in one byte, and a backspace
takes as many bytes off the text as the top of the stack says.  For a cluster of less than 256
bytes that is the whole cluster (`Kept.erase_push`).  A larger one leaves a beginning behind, whose
end need not be the end of a character: then nothing can be kept.  A text without backspaces stays
as it is (`applyBackspaces_eq_self`). -/

namespace Redline.Text

/-- The size of a text in UTF-8. -/
def byteSize : List Char → Nat
  | [] => 0
  | c :: cs => c.utf8Size + byteSize cs

/-- The text without its first `n` bytes, or `none` if that would cut a character in two. -/
def dropBytes : Nat → List Char → Option (List Char)
  | 0, cs => some cs
  | _ + 1, [] => none
  | n + 1, c :: cs => if c.utf8Size ≤ n + 1 then dropBytes (n + 1 - c.utf8Size) cs else none

theorem dropBytes_append (s t : List Char) : dropBytes (byteSize s) (s ++ t) = some t := by
  induction s with
  | nil => simp [byteSize, dropBytes]
  | cons c cs ih =>
      obtain ⟨n, h⟩ : ∃ n, byteSize (c :: cs) = n + 1 :=
        Nat.exists_eq_add_one_of_ne_zero (by have := c.utf8Size_pos; simp [byteSize]; omega)
      have here : c.utf8Size ≤ n + 1 := by rw [← h, byteSize]; omega
      have rest : n + 1 - c.utf8Size = byteSize cs := by rw [← h, byteSize]; omega
      rw [h, List.cons_append, dropBytes, if_pos here, rest, ih]

theorem byteSize_append (s t : List Char) : byteSize (s ++ t) = byteSize s + byteSize t := by
  induction s with
  | nil => simp [byteSize]
  | cons c cs ih => simp [byteSize, ih, Nat.add_assoc]

theorem byteSize_reverse (s : List Char) : byteSize s.reverse = byteSize s := by
  induction s with
  | nil => rfl
  | cons c cs ih => simp [byteSize_append, byteSize, ih, Nat.add_comm]

/-- What the backspaces so far have left. -/
structure Kept where
  /-- The text, backwards. -/
  back : List Char
  /-- The sizes of its clusters, the last one first. -/
  sizes : List UInt8

namespace Kept

def empty : Kept := ⟨[], []⟩

def toList (k : Kept) : List Char := k.back.reverse

/-- Keeps one more cluster. -/
def push (k : Kept) (cluster : List Char) : Kept :=
  ⟨cluster.reverse ++ k.back, .ofNat (byteSize cluster) :: k.sizes⟩

/-- Takes the last cluster away, if there is one. -/
def erase (k : Kept) : Option Kept :=
  match k.sizes with
  | [] => some k
  | n :: sizes => (dropBytes n.toNat k.back).map (⟨·, sizes⟩)

theorem toList_push (k : Kept) (cluster : List Char) :
    (k.push cluster).toList = k.toList ++ cluster := by
  simp [toList, push]

theorem erase_push (k : Kept) {cluster : List Char} (small : byteSize cluster < 256) :
    (k.push cluster).erase = some k := by
  have size : (UInt8.ofNat (byteSize cluster)).toNat = byteSize cluster.reverse := by
    rw [UInt8.toNat_ofNat', Nat.mod_eq_of_lt small, byteSize_reverse]
  simp [push, erase, size, dropBytes_append]

/-- Takes in one cluster of the text, which may be a backspace. -/
def enter (k : Kept) (cluster : List Char) : Option Kept :=
  if cluster = ['\x08'] then k.erase else some (k.push cluster)

/-- Clusters that are no backspaces are all kept. -/
theorem foldlM_enter {clusters : List (List Char)} (h : ∀ cluster ∈ clusters, cluster ≠ ['\x08'])
    (k : Kept) :
    ∃ k', clusters.foldlM enter k = some k' ∧ k'.toList = k.toList ++ clusters.flatten := by
  induction clusters generalizing k with
  | nil => exact ⟨k, rfl, (List.append_nil _).symm⟩
  | cons cluster clusters ih =>
      obtain ⟨hcluster, hclusters⟩ := List.forall_mem_cons.1 h
      obtain ⟨k', hk', hlist⟩ := ih hclusters (k.push cluster)
      refine ⟨k', ?_, ?_⟩
      · rw [List.foldlM_cons, enter, if_neg hcluster]
        exact hk'
      · rw [hlist, toList_push, List.flatten_cons, List.append_assoc]

end Kept

/-- The text after its backspaces have done their work, or `none` if nothing can be kept. -/
def applyBackspaces (s : List Char) : Option (List Char) :=
  ((clusters s).foldlM Kept.enter Kept.empty).map Kept.toList

/-- Nothing happens to a text without backspaces. -/
theorem applyBackspaces_eq_self {s : List Char} (h : '\x08' ∉ s) : applyBackspaces s = some s := by
  have hclusters : ∀ cluster ∈ clusters s, cluster ≠ ['\x08'] := by
    rintro _ hmem rfl
    exact h (flatten_clusters s ▸ List.mem_flatten.2 ⟨_, hmem, List.mem_singleton_self _⟩)
  obtain ⟨k, hk, hlist⟩ := Kept.foldlM_enter hclusters .empty
  rw [applyBackspaces, hk, Option.map_some, hlist, flatten_clusters]
  rfl

end Redline.Text
