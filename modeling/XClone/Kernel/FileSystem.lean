import XClone.Library.Bytes
import XClone.Kernel.Paths
import Mathlib.Logic.Function.Basic

/-! # Names, inodes and file contents

A directory slot holds every inode that was ever created under its name: the past
ones, which only open files still reach, and the one the name links to now. Inodes
are numbered in order of creation, so the linked one has the number of the past
ones. No modelled call renames a file, so an inode belongs to one name for ever and
calls on different names do not meet.
-/
namespace XClone

abbrev Byte := UInt8

structure Slot where
  past : List (List Byte)
  now : Option (List Byte)
deriving DecidableEq, Repr

namespace Slot

/-- A name under which nothing was ever created. -/
def absent : Slot := ⟨[],none⟩

def holding (content : List Byte) : Slot := ⟨[],some content⟩

/-- The bytes of an inode, also when no name links to it any more. -/
def content (s : Slot) (inode : ℕ) : List Byte :=
  if inode = s.past.length then s.now.getD [] else s.past.getD inode []

/-- Open the linked inode; with `create`, an unlinked name gets a fresh empty one. -/
def openInode (s : Slot) (create : Bool) : Option (ℕ × Slot) :=
  match s.now with
  | some _ => some (s.past.length,s)
  | none => if create then some (s.past.length,{ s with now := some [] }) else none

/-- Store bytes at an offset of an inode; a hole reads as zero bytes. -/
def write (s : Slot) (inode pos : ℕ) (bs : List Byte) : Slot :=
  if inode = s.past.length then { s with now := s.now.map (Bytes.overlay 0 · pos bs) }
  else { s with past := s.past.modify inode (Bytes.overlay 0 · pos bs) }

/-- Remove the directory entry, if it still is the one of this inode. -/
def unlink (s : Slot) (inode : ℕ) : Option Slot :=
  match s.now with
  | some c => if inode = s.past.length then some ⟨s.past ++ [c],none⟩ else none
  | none => none

@[simp] theorem content_linked (p : List (List Byte)) (c : List Byte) :
    content ⟨p,some c⟩ p.length = c := by simp [content]

/-- The inode that a creating open reaches holds what the name held, or nothing. -/
theorem openInode_create (s : Slot) :
    s.openInode true = some (s.past.length,⟨s.past,some (s.now.getD [])⟩) := by
  rcases s with ⟨past,_ | c⟩ <;> rfl

theorem openInode_found (past : List (List Byte)) (c : List Byte) (create : Bool) :
    openInode ⟨past,some c⟩ create = some (past.length,⟨past,some c⟩) := rfl

theorem openInode_missing {s : Slot} (h : s.now = none) : s.openInode false = none := by
  rw [openInode, h]
  rfl

theorem exists_of_now_ne_none {s : Slot} (h : s.now ≠ none) : ∃ past c, s = ⟨past,some c⟩ := by
  rcases s with ⟨past,_ | c⟩
  · exact absurd rfl h
  · exact ⟨past,c,rfl⟩

@[simp] theorem write_linked (p : List (List Byte)) (c : List Byte) (pos : ℕ) (bs : List Byte) :
    write ⟨p,some c⟩ p.length pos bs = ⟨p,some (Bytes.overlay 0 c pos bs)⟩ := by simp [write]

/-- A write of nothing leaves the file as it is. -/
theorem write_nil (s : Slot) (inode pos : ℕ) : s.write inode pos [] = s := by
  have hid : (fun c : List Byte => Bytes.overlay 0 c pos []) = id := by
    funext c
    exact Bytes.overlay_nil _ _ _
  unfold write
  rw [hid]
  split
  · rw [Option.map_id]
    rfl
  · rw [List.modify_id]

@[simp] theorem unlink_linked (p : List (List Byte)) (c : List Byte) :
    unlink ⟨p,some c⟩ p.length = some ⟨p ++ [c],none⟩ := by simp [unlink]

end Slot

/-- The file system: one slot for every absolute path. -/
abbrev Fs := Path → Slot

/-- An open file: the dentry's path and the inode it was opened on. -/
structure File where
  path : Path
  inode : ℕ
deriving DecidableEq, Repr

def Fs.content (fs : Fs) (f : File) : List Byte := (fs f.path).content f.inode

/-- A change under another name does not reach an open file. -/
theorem Fs.content_update_of_ne {fs : Fs} {f : File} {path : Path} (h : f.path ≠ path) (s : Slot) :
    Fs.content (Function.update fs path s) f = fs.content f := by
  rw [Fs.content, Function.update_of_ne h, Fs.content]

/-- A disk with nothing but the listed files. -/
def Fs.ofList (files : List (Path × List Byte)) : Fs := fun path =>
  match files.lookup path with
  | some content => .holding content
  | none => .absent

/-- What the path names now, if anything. -/
def Fs.entry (fs : Fs) (path : Path) : Option (List Byte) := (fs path).now

theorem Fs.entry_of_eq {fs fs' : Fs} {path : Path} {s : Slot} (h : fs' = Function.update fs path s) :
    fs'.entry path = s.now := by
  rw [h, Fs.entry, Function.update_self]

end XClone
