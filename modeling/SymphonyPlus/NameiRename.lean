import SymphonyPlus.NameiCalls

/-! What `sys_rename` does to the disk, on every way out. -/

namespace SymphonyPlus.Namei

open Function

inductive Renaming (env : Env) (d : Disk) (oldname newname : Name) : Int → Disk → Prop
  | fails {result : Int} (negative : result < 0) : Renaming env d oldname newname result d
  | same {od nd : Ino} {oname nname : Name} {k j : Nat}
      (old : leads env d oldname = some (od, oname)) (source : d.found env od oname = some k)
      (new : leads env d newname = some (nd, nname)) (target : d.found env nd nname = some j)
      (one : (d.entryAt nd j).inode = (d.entryAt od k).inode) :
      Renaming env d oldname newname 0 d
  | replaced {od nd : Ino} {oname nname : Name} {k j : Nat}
      (old : leads env d oldname = some (od, oname)) (source : d.found env od oname = some k)
      (new : leads env d newname = some (nd, nname)) (target : d.found env nd nname = some j)
      (apart : (d.entryAt nd j).inode ≠ (d.entryAt od k).inode)
      (file : isRegular (d.inode (d.entryAt od k).inode).mode = true)
      (other : isRegular (d.inode (d.entryAt nd j).inode).mode = true) :
      Renaming env d oldname newname 0
        ((d.publish od k nd j (d.entryAt od k).inode).dropLink (d.entryAt nd j).inode)
  | moved {od nd : Ino} {oname nname : Name} {k : Nat}
      (old : leads env d oldname = some (od, oname)) (source : d.found env od oname = some k)
      (new : leads env d newname = some (nd, nname)) (absent : Missed env d nd nname)
      (file : isRegular (d.inode (d.entryAt od k).inode).mode = true) :
      Renaming env d oldname newname 0
        ((d.enter nd nname (d.entryAt od k).inode).writeEntry od k 0)

theorem regular_file {mode : BitVec 16} (regular : isRegular mode = true) :
    isDirectory mode = false := by
  simp only [isRegular, isDirectory, decide_eq_true_eq, decide_eq_false_iff_not] at regular ⊢
  rw [regular]
  decide

def Exit.done (exit : Exit) : Option (Int × Disk) :=
  exit.disk.leave exit.result exit.ids exit.blocks

section

theorem noEntry : -ENOENT < 0 := by decide
theorem refused : -EPERM < 0 := by decide

variable {env : Env} {d : Disk} {od nd : Ino} {oldname newname oname nname : Name} {k : Nat}

theorem holding_publish {ids : List Ino} {blocks : List DirBlock} (j : Nat) (src : Ino) :
    (d.holding ids blocks).publish od k nd j src = (d.publish od k nd j src).holding ids blocks :=
  rfl

theorem renameTo_cases (ready : Ready env d)
    (old : leads env d oldname = some (od, oname)) (source : d.found env od oname = some k)
    (new : leads env d newname = some (nd, nname))
    (named : nname ≠ [])
    (file : isRegular (d.inode (d.entryAt od k).inode).mode = true) :
    ∃ result after, (renameTo env (d.holding [(d.entryAt od k).inode, nd, od] [blockOf od k]) od k nd
        (d.entryAt od k).inode nname).bind Exit.done = some (result, after) ∧
      Renaming env d oldname newname result after := by
  have three : ∀ id ∈ [(d.entryAt od k).inode, nd, od], Live d id := by
    intro id inside
    simp only [List.mem_cons, List.not_mem_nil, or_false] at inside
    rcases inside with rfl | rfl | rfl
    · exact found_live ready source
    · exact leads_live new
    · exact leads_live old
  rw [renameTo]
  cases target : d.found env nd nname with
  | some j =>
      have also := found_live ready target
      have four : ∀ id ∈ [(d.entryAt nd j).inode, (d.entryAt od k).inode, nd, od], Live d id :=
        List.forall_mem_cons.mpr ⟨also, three⟩
      rw [findEntry_some target]
      simp only [Option.bind_eq_bind]
      rw [holding_entryAt,
        iget_held ready (show [(d.entryAt od k).inode, nd, od].length ≤ 3 from Nat.le_refl 3),
        Option.bind_some]
      by_cases one : (d.entryAt nd j).inode = (d.entryAt od k).inode
      · rw [if_pos one]
        exact ⟨_, _, leave_live four, .same old source new target one⟩
      rw [if_neg one]
      split
      · exact ⟨_, _, leave_live four, .fails refused⟩
      · rename_i regular
        simp only [Bool.not_eq_true', Bool.not_eq_false, holding_inode] at regular
        split
        · exact ⟨_, _, leave_live four, .fails refused⟩
        · have directories : ∀ dir, isDirectory (d.inode dir).mode = true →
              (d.entryAt nd j).inode ≠ dir := by
            rintro dir isDir rfl
            rw [regular_file regular] at isDir
            cases isDir
          have away : (d.entryAt nd j).inode ∉ [(d.entryAt od k).inode, nd, od] := by
            have odDir := (enterable_live (leads_enterable old)).1
            have ndDir := (enterable_live (leads_enterable new)).1
            simp only [List.mem_cons, List.not_mem_nil, or_false, not_or]
            exact ⟨one, directories nd ndDir, directories od odDir⟩
          refine ⟨0, _, ?_, .replaced old source new target one file regular⟩
          rw [holding_publish, holding_inode, holding_setNlinks, Disk.dropLink]
          refine leave_first away fun id inside => ?_
          exact live_setInode (fun same => away (same ▸ inside)) (three id inside)
  | none =>
      rw [findEntry_none target]
      simp only
      rcases addEntry_cases env d [(d.entryAt od k).inode, nd, od] [blockOf od k] nd nname with
        full | ⟨j, after, run, rfl, written⟩
      · rw [full]
        exact ⟨_, _, leave_live three, .fails (show -ENOSPC < 0 by decide)⟩
      · rw [run]
        refine ⟨0, _, ?_, .moved old source new ⟨named, target⟩ file⟩
        rw [← written (d.entryAt od k).inode]
        simp only [Option.bind_some]
        rw [holding_publish, Exit.done]
        have still : ∀ id ∈ [(d.entryAt od k).inode, nd, od],
            Live ((d.enter nd nname 0).publish od k nd j (d.entryAt od k).inode) id := three
        exact leave_live still

theorem renameFrom_cases (ready : Ready env d)
    (old : leads env d oldname = some (od, oname)) (new : leads env d newname = some (nd, nname))
    (named : nname ≠ []) :
    ∃ result after, (renameFrom env (d.holding [nd, od] []) od oname nd nname).bind Exit.done =
      some (result, after) ∧ Renaming env d oldname newname result after := by
  have two : ∀ id ∈ [nd, od], Live d id := by
    intro id inside
    rcases List.mem_pair.mp inside with rfl | rfl
    · exact leads_live new
    · exact leads_live old
  rw [renameFrom]
  cases source : d.found env od oname with
  | none =>
      rw [findEntry_none source]
      exact ⟨_, _, leave_live two, .fails noEntry⟩
  | some k =>
      have three : ∀ id ∈ [(d.entryAt od k).inode, nd, od], Live d id :=
        List.forall_mem_cons.mpr ⟨found_live ready source, two⟩
      rw [findEntry_some source]
      simp only [Option.bind_eq_bind]
      rw [holding_entryAt, iget_held ready (show [nd, od].length ≤ 3 from Nat.le_succ 2),
        Option.bind_some]
      split
      · exact ⟨_, _, leave_live three, .fails refused⟩
      · rename_i regular
        simp only [Bool.not_eq_true', Bool.not_eq_false, holding_inode] at regular
        split
        · exact ⟨_, _, leave_live three, .fails refused⟩
        · exact renameTo_cases ready old source new named regular

theorem rename_cases (ready : Ready env d) (oldname newname : Name) :
    ∃ result after, sysRename env d oldname newname = some (result, after) ∧
      Renaming env d oldname newname result after := by
  have first : dirNamei env oldname d = _ := dirNamei_leads ready [] (by decide) [] oldname
  have few : ((leads env d oldname).toList.map Prod.fst).length ≤ 3 := by
    cases leads env d oldname with
    | none => exact Nat.zero_le 3
    | some above => exact single_few above.1
  have run : sysRename env d oldname newname =
      (renameBetween env
        (d.holding ((leads env d newname).toList.map Prod.fst ++
          (leads env d oldname).toList.map Prod.fst) [])
        (leads env d oldname) (leads env d newname)).bind Exit.done := by
    rw [sysRename, first, List.append_nil]
    simp only [Option.bind_eq_bind, Option.bind_some]
    rw [dirNamei_leads ready _ few _ newname]
    rfl
  have directories : ∀ id ∈ (leads env d newname).toList.map Prod.fst ++
      (leads env d oldname).toList.map Prod.fst, Live d id := by
    intro id inside
    simp only [List.mem_append, List.mem_map, Option.mem_toList] at inside
    rcases inside with ⟨⟨dir, name⟩, there, rfl⟩ | ⟨⟨dir, name⟩, there, rfl⟩
    · exact leads_live there
    · exact leads_live there
  rw [run]
  cases old : leads env d oldname with
  | none =>
      rw [old] at directories
      cases new : leads env d newname with
      | none => exact ⟨_, _, rfl, .fails noEntry⟩
      | some found =>
          rw [new] at directories
          exact ⟨_, _, leave_live directories, .fails noEntry⟩
  | some above =>
      obtain ⟨od, oname⟩ := above
      rw [old] at directories
      cases new : leads env d newname with
      | none =>
          rw [new] at directories
          exact ⟨_, _, leave_live directories, .fails noEntry⟩
      | some found =>
          obtain ⟨nd, nname⟩ := found
          rw [new] at directories
          rw [renameBetween]
          split
          · exact ⟨_, _, leave_live directories, .fails noEntry⟩
          · rename_i names
            split
            · exact ⟨_, _, leave_live directories, .fails (show -ENAMETOOLONG < 0 by decide)⟩
            · split
              · exact ⟨_, _, leave_live directories, .fails (show -EACCES < 0 by decide)⟩
              · exact renameFrom_cases ready old new fun none => names (.inr none)

end

end SymphonyPlus.Namei
