import Vnfs.CfhCursorCompound
import Vnfs.Lib.Brackets
import Vnfs.Nfs.PathBytes
import Vnfs.PathIoPacking

/-!
The compounds of path I/O that close their files. Whatever the items are and
wherever a compound is cut, an OPEN is followed by one CLOSE before the next
OPEN, with nothing between that moves the current filehandle; every transfer and
every truncation of an item finds the item's file as the current filehandle; and
the execution map counts what was appended.
-/

namespace Vnfs

open FileServer List Option Vnfs.Bracket ArgOp NameTree CursorCall

/-- OPEN and CLOSE, and what moves the current filehandle otherwise. -/
def ArgOp.bracket : ArgOp → Bracket
  | .openFile _ => .opens
  | .close .. => .closes
  | .putfh _ | .putrootfh | .lookup _ | .lookupp | .restorefh => .disturbs
  | _ => .keeps

/-- At most one file is open, and the current filehandle is there. -/
structure PathIoTarget.Bracketed (target : PathIoTarget) : Prop where
  scan : Bracket.scan bracket false target.compound = some target.openedPath.isSome
  atOpened : target.openedPath.isSome = true → target.fhAtOpened = true

section Brackets

variable {target : PathIoTarget} {owner : PathIoOwner} {caller : Nat} {file : FileRef}
  {opening : PathIoOpen}

theorem ArgOp.bracket_transfer {op : ArgOp} (h : op.isTransfer = true) : op.bracket = .keeps := by
  cases op <;> first | rfl | cases h

/-- What a walk of the cursor consists of. -/
def ArgOp.walks : ArgOp → Bool
  | .putrootfh | .lookup _ | .lookupp | .restorefh | .savefh => true
  | _ => false

theorem ArgOp.bracket_walks {op : ArgOp} (h : op.walks = true) :
    op.bracket = .keeps ∨ op.bracket = .disturbs := by
  cases op <;> first | exact .inl rfl | exact .inr rfl | cases h

theorem CfhCursor.walkParent_walks (cursor : CfhCursor) (dir : Bytes) :
    ∀ op ∈ (cursor.walkParent dir).ops, op.walks = true := by
  have hl : ∀ (names : List Bytes), ∀ op ∈ names.map ArgOp.lookup, op.walks = true := by
    intro names op hop
    obtain ⟨name, -, rfl⟩ := mem_map.mp hop
    rfl
  intro op hop
  unfold walkParent at hop
  split at hop
  · split at hop
    · cases hop
    · rw [mem_singleton.mp hop]
      rfl
  split at hop
  · rename_i step hs
    unfold walkRelative at hs
    split at hs
    · cases hs
    dsimp only at hs
    split at hs
    · obtain rfl := some.inj hs
      rcases mem_append.mp hop with hup | hd
      · rcases mem_append.mp hup with hr | hc
        · split at hr
          · cases hr
          · rw [mem_singleton.mp hr]
            rfl
        · rw [(mem_replicate.mp hc).2]
          rfl
      · exact hl _ op hd
    · cases hs
  · rcases mem_cons.mp hop with rfl | hd
    · rfl
    · exact hl _ op hd

theorem CfhCursor.setParent_walks {cursor : CfhCursor} {path : Bytes} {step : CursorStep}
    (h : cursor.call (.setParent path) = some step) : ∀ op ∈ step.ops, op.walks = true := by
  obtain ⟨⟨dir, leaf⟩, -, rfl⟩ := map_eq_some_iff.mp h
  intro op hop
  dsimp only at hop
  split at hop
  · exact cursor.walkParent_walks dir op hop
  rcases mem_append.mp hop with hw | hs
  · exact cursor.walkParent_walks dir op hw
  · rw [mem_singleton.mp hs]
    rfl

namespace PathIoTarget.Bracketed

theorem closeOpened (h : target.Bracketed) : (target.closeOpened true caller).Bracketed ∧
      (target.closeOpened true caller).openedPath = none := by
  have hsc := h.scan
  unfold PathIoTarget.closeOpened
  split
  · rename_i ho
    refine ⟨⟨?_, fun hs => nomatch hs⟩, rfl⟩
    change Bracket.scan bracket false (target.push (caller - 1) [closeOp] 1).compound = _
    rw [compound_push, scan_append, hsc, ho.2.1]
    rfl
  rename_i hn
  refine ⟨h, ?_⟩
  cases hopd : target.openedPath with
  | none => rfl
  | some path =>
    have hs : target.openedPath.isSome = true := by rw [hopd]; rfl
    exact absurd ⟨rfl, hs, h.atOpened hs⟩ hn

theorem prepare {next : PathIoTarget × Option Bool}
    (hpr : target.Prepared true owner caller opening file next) (h : target.Bracketed) :
    next.1.Bracketed := by
  obtain ⟨hc, hn⟩ : (target.closeOpened true caller).Bracketed ∧ _ := h.closeOpened
  have hs := hc.scan
  rw [hn] at hs
  cases hpr with
  | same hp hat => exact h
  | rejected hsp => exact hc
  | @opened path step hst =>
    refine ⟨?_, fun _ => rfl⟩
    have hw : Bracket.scan bracket false
        ((target.closeOpened true caller).walked caller step).compound = some false := by
      rw [compound_walked, scan_append, hs]
      apply scan_closed
      intro op hop
      exact bracket_walks (CfhCursor.setParent_walks hst op hop)
    rw [compound_opened, scan_append, hw]
    unfold openOps
    cases opening.truncateExisting <;> rfl
  | @handle fh =>
    refine ⟨?_, fun hso => ?_⟩
    · change Bracket.scan bracket false ((target.closeOpened true caller).push caller
        [.putfh fh] 1).compound = some (target.closeOpened true caller).openedPath.isSome
      rw [compound_push, scan_append, hs, hn]
      rfl
    · change (target.closeOpened true caller).openedPath.isSome = true at hso
      rw [hn] at hso
      cases hso

theorem push_keeps (h : target.Bracketed) {op : ArgOp} (hop : op.bracket = .keeps) :
    (target.push caller [op] 1).Bracketed := by
  refine ⟨?_, h.atOpened⟩
  rw [compound_push, scan_append, h.scan]
  apply scan_keeps
  intro a ha
  rw [mem_singleton.mp ha]
  exact hop

theorem closeLast (h : target.Bracketed) (last : Nat) :
    Bracket.scan bracket false (target.closeLast true last).compound = some false := by
  have hs := h.scan
  unfold PathIoTarget.closeLast
  split
  · rename_i ho
    rw [compound_push, scan_append, hs, ho.2]
    rfl
  rename_i hn
  rw [hs]
  congr 1
  simpa using hn

end PathIoTarget.Bracketed

theorem PathIo.Packing.bracketed {T : Type} {io : PathIo T} {chunk : PathIoChunk io}
    {items : List T} (packing : io.Packing true owner items chunk) : chunk.Bracketed := by
  apply packing.target_induction (P := PathIoTarget.Bracketed)
    (Q := fun _ _ _ => PathIoTarget.Bracketed) ⟨rfl, fun h => nomatch h⟩
  · intro target caller item start next h _ hp
    have hn := PathIoTarget.Bracketed.prepare hp ⟨h.scan, h.atOpened⟩
    exact ⟨fun _ => hn, fun _ _ => hn⟩
  · intro target caller item newlyOpened op h _ hop
    exact h.push_keeps (bracket_transfer hop)
  · intro target caller item newlyOpened h
    exact ⟨h.scan, h.atOpened⟩

end Brackets

section Server

variable {α : Type} {server : FileServer α} {conn conn' : Conn α} {op : ArgOp}

def ArgOp.onFile : ArgOp → Bool
  | .read .. | .write .. | .setattr .. => true
  | _ => false

/-- The operations that leave the filehandles and the tree. -/
def ArgOp.stays : ArgOp → Bool
  | .getfh | .setattr .. | .close .. | .read .. | .write .. => true
  | _ => false

theorem step_stays (hop : op.stays = true) (hr : server.step conn op = .ok conn') :
    conn'.current = conn.current ∧ conn'.saved = conn.saved ∧
      conn'.world.tree = conn.world.tree := by
  cases op with
  | getfh => exact stays_of_attributes hr
  | setattr attrs stateid => exact stays_of_attributes hr
  | close seqid stateid => exact stays_of_attributes hr
  | read stateid offset count => exact stays_of_attributes hr
  | write stateid offset stable data => exact stays_of_attributes hr
  | _ => cases hop

theorem execute_stays {ops : List ArgOp} (ho : ∀ op ∈ ops, op.stays = true)
    (hr : server.execute conn ops = .ok conn') :
    conn'.current = conn.current ∧ conn'.saved = conn.saved ∧
      conn'.world.tree = conn.world.tree := by
  induction ops generalizing conn with
  | nil =>
    obtain rfl := Except.ok.inj hr
    exact ⟨rfl, rfl, rfl⟩
  | cons op ops ih =>
    obtain ⟨middle, hs, hr⟩ := execute_cons_ok hr
    obtain ⟨hc, hsa, ht⟩ := step_stays (ho op mem_cons_self) hs
    obtain ⟨hc', hsa', ht'⟩ := ih (fun op hop => ho op (mem_cons_of_mem _ hop)) hr
    exact ⟨hc'.trans hc, hsa'.trans hsa, ht'.trans ht⟩

/-- What keeps a file open, and the CLOSE, leave the current filehandle. -/
theorem step_current (hop : op.bracket = .keeps ∨ op.bracket = .closes)
    (hr : server.step conn op = .ok conn') : conn'.current = conn.current := by
  cases op with
  | savefh =>
    obtain ⟨d, hc, hr⟩ := cfh_bind_ok hr
    cases hr
    rfl
  | remove name => exact (step_remove_ok hr).choose_spec.2.2.2.1
  | rename oldname newname =>
    obtain ⟨s, d, -, -, -, hc, -⟩ := step_rename_ok hr
    exact hc
  | openFile args => rcases hop with hop | hop <;> cases hop
  | putfh fh => rcases hop with hop | hop <;> cases hop
  | putrootfh => rcases hop with hop | hop <;> cases hop
  | lookup name => rcases hop with hop | hop <;> cases hop
  | lookupp => rcases hop with hop | hop <;> cases hop
  | restorefh => rcases hop with hop | hop <;> cases hop
  | _ => exact (stays_of_attributes hr).1

theorem execute_current {ops : List ArgOp} (ho : ∀ op ∈ ops, op.bracket = .keeps)
    (hr : server.execute conn ops = .ok conn') : conn'.current = conn.current := by
  induction ops generalizing conn with
  | nil =>
    obtain rfl := Except.ok.inj hr
    rfl
  | cons op ops ih =>
    obtain ⟨middle, hs, hr⟩ := execute_cons_ok hr
    rw [ih (fun op hop => ho op (mem_cons_of_mem _ hop)) hr]
    exact step_current (.inl (ho op mem_cons_self)) hs

theorem step_openFile_child {args : OpenArgs} {name : Bytes} (hn : args.file = some name)
    (hr : server.step conn (.openFile args) = .ok conn') :
    ∃ d c, conn.current = some d ∧ conn'.current = some c ∧
      conn'.world.tree.child d name = some c := by
  obtain ⟨d, hc, hr⟩ := cfh_bind_ok hr
  replace hr := permits_bind_ok hr
  simp only [hn, bind, Except.bind] at hr
  split at hr
  · cases hr
  rename_i opened ho
  obtain ⟨w, c⟩ := opened
  cases hr
  refine ⟨d, c, hc, rfl, ?_⟩
  unfold openIn at ho
  split at ho
  · cases ho
  rename_i hd
  split at ho
  · rename_i c' hch
    split at ho
    · cases ho
    split at ho
    · cases ho
    cases hp : server.performOn conn.world (.openFile args) c' with
    | error status => rw [hp] at ho; cases ho
    | ok w' =>
      rw [hp] at ho
      cases ho
      rw [performOn_tree hp]
      exact hch
  split at ho
  · cases ho
  split at ho
  · cases ho
  · cases ho
    rw [child_link (by simpa using hd), if_pos ⟨rfl, rfl⟩]

theorem ArgOp.onFile_walks (h : op.walks = true) : op.onFile = false := by
  cases op <;> first | rfl | cases h

/-- The current filehandle is the file, in the tree as it is. -/
def FileRef.At (conn : Conn α) : FileRef → Prop
  | .path target => ∃ c, conn.current = some c ∧
      conn.world.tree.resolve (pathComponents target) = some c
  | .handle fh => conn.current = some fh

theorem FileRef.At.of_same {file : FileRef} (h : file.At conn) (hcu : conn'.current = conn.current)
    (ht : conn'.world.tree = conn.world.tree) : file.At conn' := by
  cases file with
  | path path =>
    obtain ⟨c, hc, hr⟩ := h
    exact ⟨c, hcu.trans hc, by rw [ht, hr]⟩
  | handle fh => exact hcu.trans h

theorem Standing.of_same {cursor : CfhCursor} (h : Standing cursor conn)
    (hs : conn'.saved = conn.saved) (ht : conn'.world.tree = conn.world.tree) :
    Standing cursor conn' := by
  refine ⟨?_, ?_⟩
  · rw [ht]
    exact h.wellFormed
  · rw [ht, hs]
    exact h.saved

end Server

section Directed

variable {α : Type} {server : FileServer α} {w : World α} {files : Nat → Option FileRef}
  {target : PathIoTarget} {close : Bool} {owner : PathIoOwner} {caller : Nat} {file : FileRef}
  {opening : PathIoOpen}

variable (server w) in
def PathIoTarget.Reaches (ops : List ArgOp) (conn : Conn α) : Prop :=
  server.execute ⟨w, none, none⟩ ops = .ok conn

variable (server w files) in
/-- What holds while a compound is built, whatever server gets it: the saved
filehandle is where the cursor thinks it is, and operations on files are on the
files of their items. -/
structure PathIoTarget.Directed (target : PathIoTarget) : Prop where
  standing : ∀ conn, Reaches server w target.compound conn → Standing target.cursor conn
  directed : ∀ i k op, target.ops[i]? = some (k, op) → op.onFile = true →
    ∃ file, files k = some file ∧
      ∀ conn, Reaches server w (target.compound.take i) conn → file.At conn

namespace PathIoTarget

variable {ops : List ArgOp} {conn : Conn α} {path : Bytes}

theorem Reaches.split {rest : List ArgOp} (h : Reaches server w (ops ++ rest) conn) :
    ∃ middle, Reaches server w ops middle ∧ server.execute middle rest = .ok conn := by
  unfold Reaches at h ⊢
  rw [execute_append] at h
  cases ho : server.execute ⟨w, none, none⟩ ops with
  | error error => rw [ho] at h; cases h
  | ok middle =>
    rw [ho] at h
    exact ⟨middle, rfl, h⟩

theorem Directed.append {cursor : CfhCursor} {next : PathIoTarget}
    (h : target.Directed server w files) (ho : next.ops = target.ops ++ ops.map (Prod.mk caller))
    (hfs : ∀ i op, ops[i]? = some op → op.onFile = true → ∃ file, files caller = some file ∧
      ∀ conn, Reaches server w (target.compound ++ ops.take i) conn → file.At conn)
    (hcu : next.cursor = cursor)
    (hs : ∀ conn, Reaches server w (target.compound ++ ops) conn → Standing cursor conn) :
    next.Directed server w files := by
  have hc : next.compound = target.compound ++ ops := by
    simp [compound, ho, Function.comp_def]
  refine ⟨?_, ?_⟩
  · intro conn hr
    rw [hc] at hr
    rw [hcu]
    exact hs conn hr
  intro i k op hop hf
  have hl : target.compound.length = target.ops.length := length_map ..
  rw [ho] at hop
  rw [hc]
  by_cases hi : i < target.ops.length
  · rw [getElem?_append_left hi] at hop
    rw [take_append_of_le_length (by omega)]
    exact h.directed i k op hop hf
  rw [getElem?_append_right (by omega), getElem?_map] at hop
  obtain ⟨op', hop', heq⟩ := map_eq_some_iff.mp hop
  obtain ⟨rfl, rfl⟩ := Prod.mk.inj heq
  rw [take_append, take_of_length_le (by omega), hl]
  exact hfs _ op' hop' hf

theorem Directed.stay {op : ArgOp} {count : Nat} (h : target.Directed server w files)
    (hop : op.stays = true) (hf : op.onFile = true → ∃ file, files caller = some file ∧
      ∀ conn, Reaches server w target.compound conn → file.At conn) :
    (target.push caller [op] count).Directed server w files := by
  refine h.append rfl ?_ rfl ?_
  · intro i op' hop' hon
    cases i with
    | zero =>
      obtain rfl := some.inj hop'
      rw [take_zero, append_nil]
      exact hf hon
    | succ i => cases hop'
  intro conn hr
  obtain ⟨middle, hm, hru⟩ := hr.split
  obtain ⟨-, hs, ht⟩ := execute_stays (by simpa using hop) hru
  exact (h.standing middle hm).of_same hs ht

theorem Directed.closeOpened (h : target.Directed server w files) :
    (target.closeOpened close caller).Directed server w files := by
  unfold PathIoTarget.closeOpened
  split
  · have hc : (target.push (caller - 1) [closeOp] 1).Directed server w files :=
      h.stay rfl fun hon => nomatch hon
    exact ⟨hc.standing, hc.directed⟩
  · exact h

theorem Directed.walked {step : CursorStep} (h : target.Directed server w files)
    (hat : target.cursor.atSaved = false) (hst : target.cursor.call (.setParent path) = some step) :
    (target.walked caller step).Directed server w files ∧
      ∀ conn, Reaches server w (target.walked caller step).compound conn →
        (setParent path).Names conn := by
  have hcl : ∀ conn, Reaches server w (target.compound ++ step.ops) conn → ∃ middle,
      Called (.setParent path) target.cursor step.cursor middle conn := by
    intro conn hr
    obtain ⟨middle, hm, hru⟩ := hr.split
    refine ⟨middle, (h.standing middle hm).call ?_ hst hru⟩
    intro _ hs
    rw [hat] at hs
    cases hs
  constructor
  · refine h.append rfl ?_ rfl ?_
    · intro i op hop hon
      have hwk := CfhCursor.setParent_walks hst op (mem_of_getElem? hop)
      rw [onFile_walks hwk] at hon
      cases hon
    · intro conn hr
      obtain ⟨middle, hc⟩ := hcl conn hr
      exact hc.standing
  intro conn hr
  rw [compound_walked] at hr
  obtain ⟨middle, hc⟩ := hcl conn hr
  exact hc.names

/-- OPEN in the parent directory of a path leads to the file of the path. -/
theorem at_of_open {args : OpenArgs} {conn' : Conn α}
    (hnm : (setParent path).Names conn) (hn : args.file = some (leafOf path))
    (hru : server.step conn (.openFile args) = .ok conn') : (FileRef.path path).At conn' := by
  obtain ⟨dir, leaf, d, hs, hd, hr⟩ := hnm
  have hl : leafOf path = leaf := by simp [leafOf, hs]
  rw [hl] at hn
  obtain ⟨d', c, hd', hc, hch⟩ := step_openFile_child hn hru
  obtain rfl := some.inj (hd.symm.trans hd')
  have hr' : conn'.world.tree.resolve (pathComponents dir) = some d := by
    obtain ⟨-, _, -, -, ht | ⟨name, c', hdi, hf, -, ht⟩⟩ := step_openFile_ok hru
    · rw [ht, hr]
    · rw [ht]
      exact resolve_link hr hdi hf
  refine ⟨c, hc, ?_⟩
  rw [splitPathBytes_components hs, resolve, walk_append]
  rw [resolve] at hr'
  rw [hr']
  change (conn'.world.tree.child d leaf).bind _ = _
  rw [hch]
  rfl

theorem Directed.opened (h : target.Directed server w files) (hf : files caller = some (.path path))
    (hnm : ∀ conn, Reaches server w target.compound conn → (setParent path).Names conn) :
    (target.opened close owner caller path opening).Directed server w files ∧
      ∀ conn, Reaches server w (target.opened close owner caller path opening).compound conn →
        (FileRef.path path).At conn := by
  obtain ⟨args, rest, hops, hn, hrest⟩ : ∃ args rest,
      target.openOps close owner path opening = .openFile args :: rest ∧
      args.file = some (leafOf path) ∧ ∀ op ∈ rest, op.stays = true := by
    refine ⟨_, _, rfl, rfl, ?_⟩
    cases close <;> cases opening.truncateExisting <;> simp [stays]
  -- From the OPEN on, the current filehandle is the file.
  have hb : ∀ i conn, Reaches server w (target.compound ++ .openFile args :: rest.take i) conn →
      (FileRef.path path).At conn ∧ Standing target.cursor conn := by
    intro i conn hr
    obtain ⟨middle, hm, hru⟩ := hr.split
    obtain ⟨opened, ho, hru⟩ := execute_cons_ok hru
    obtain ⟨hc, hsa, ht⟩ := execute_stays (fun op hop => hrest op (mem_of_mem_take hop)) hru
    have hs : Operated (.openFile args) target.cursor middle opened :=
      (h.standing middle hm).operate rfl (fun hre => nomatch hre) ho
    exact ⟨(at_of_open (hnm middle hm) hn ho).of_same hc ht, hs.standing.of_same hsa ht⟩
  have ha : target.compound ++ target.openOps close owner path opening =
      target.compound ++ .openFile args :: rest.take rest.length := by
    rw [hops, take_length]
  constructor
  · refine h.append rfl ?_ rfl ?_
    · intro i op hop hon
      rw [hops] at hop ⊢
      cases i with
      | zero =>
        obtain rfl := some.inj hop
        cases hon
      | succ i => exact ⟨_, hf, fun conn hr => (hb i conn hr).1⟩
    · intro conn hr
      rw [ha] at hr
      exact (hb _ conn hr).2
  · intro conn hr
    rw [compound_opened, ha] at hr
    exact (hb _ conn hr).1

/-- Where the file of a path is open, the current filehandle is there. -/
def AtOpened (server : FileServer α) (w : World α) (target : PathIoTarget) : Prop :=
  ∀ path, target.openedPath = some path → target.fhAtOpened = true →
    ∀ conn, Reaches server w target.compound conn → (FileRef.path path).At conn

theorem AtOpened.closeOpened (h : target.AtOpened server w) :
    (target.closeOpened close caller).AtOpened server w := by
  unfold PathIoTarget.closeOpened
  split
  · intro path hp
    cases hp
  · exact h

variable (caller) in
theorem Directed.handle (h : target.Directed server w files) (fh : NfsFh) :
    ({target.push caller [.putfh fh] 1 with
        cursor := {target.cursor with atSaved := false}
        fhAtOpened := false} : PathIoTarget).Directed server w files ∧
      ∀ conn, Reaches server w (target.compound ++ [.putfh fh]) conn →
        (FileRef.handle fh).At conn := by
  have hcl : ∀ conn, Reaches server w (target.compound ++ [.putfh fh]) conn → ∃ middle,
      Called (.setHandle fh) target.cursor {target.cursor with atSaved := false} middle conn := by
    intro conn hr
    obtain ⟨middle, hm, hru⟩ := hr.split
    refine ⟨middle, ?_⟩
    have hc : target.cursor.call (.setHandle fh) = some (target.cursor.setHandle fh) := rfl
    apply (h.standing middle hm).call _ hc hru
    intro hwk
    cases hwk
  constructor
  · refine h.append rfl ?_ rfl ?_
    · intro i op hop hon
      rw [mem_singleton.mp (mem_of_getElem? hop)] at hon
      cases hon
    · intro conn hr
      obtain ⟨middle, hc⟩ := hcl conn hr
      exact hc.standing
  · intro conn hr
    obtain ⟨middle, hc⟩ := hcl conn hr
    exact hc.names

/-- Preparing an item makes its file the current filehandle. -/
theorem Prepared.directed {next : PathIoTarget × Option Bool}
    (hpr : target.Prepared close owner caller opening file next)
    (hf : files caller = some file) (h : target.Directed server w files)
    (hat : target.cursor.atSaved = false) (ho : target.AtOpened server w) :
    next.1.Directed server w files ∧ next.1.AtOpened server w ∧
      (next.2 ≠ some true → next.1.cursor.atSaved = false) ∧
      (next.2.isSome = true → ∀ conn, Reaches server w next.1.compound conn → file.At conn) := by
  have hcl : (target.closeOpened close caller).Directed server w files := h.closeOpened
  have hc : (target.closeOpened close caller).cursor.atSaved = false := by
    rw [closeOpened_cursor, hat]
  cases hpr with
  | same hp hfh => exact ⟨h, ho, fun _ => hat, fun _ => ho _ hp hfh⟩
  | rejected hsp =>
    exact ⟨hcl, ho.closeOpened, fun _ => hc, fun hs => nomatch hs⟩
  | @opened path step hst =>
    obtain ⟨hw, hn⟩ :
        ((target.closeOpened close caller).walked caller step).Directed server w files ∧ _ :=
      hcl.walked hc hst
    obtain ⟨hd, hp⟩ := hw.opened hf hn
    refine ⟨hd, ?_, fun hno => absurd rfl hno, fun _ => hp⟩
    intro path' hp' _
    obtain rfl := some.inj hp'
    exact hp
  | @handle fh =>
    obtain ⟨hd, hh⟩ := hcl.handle caller fh
    rw [closeOpened_cursor] at hd
    rw [← compound_push _ caller _ 1] at hh
    refine ⟨hd, ?_, fun _ => rfl, fun _ => hh⟩
    intro path _ hfh
    cases hfh

end PathIoTarget

def PathIo.fileOf {T : Type} (io : PathIo T) (items : List T) (caller : Nat) : Option FileRef :=
  items[caller]?.map io.file

theorem PathIo.Packing.directed {T : Type} {io : PathIo T} {chunk : PathIoChunk io}
    {items : List T} (packing : io.Packing close owner items chunk)
    (hwf : w.tree.WellFormed) : chunk.Directed server w (io.fileOf items) := by
  have ha : chunk.Directed server w (io.fileOf items) ∧ chunk.cursor.atSaved = false ∧
      chunk.AtOpened server w := by
    apply packing.target_induction (P := fun target => target.Directed server w (io.fileOf items) ∧
        target.cursor.atSaved = false ∧ target.AtOpened server w)
      (Q := fun _ item newlyOpened target => target.Directed server w (io.fileOf items) ∧
        (newlyOpened = false → target.cursor.atSaved = false) ∧ target.AtOpened server w ∧
        ∀ conn, PathIoTarget.Reaches server w target.compound conn → (io.file item).At conn)
    · refine ⟨⟨?_, ?_⟩, rfl, fun path hp => nomatch hp⟩
      · intro conn hr
        obtain rfl := Except.ok.inj hr
        exact ⟨hwf, fun dir hdi => nomatch hdi⟩
      · intro i k op hop
        cases hop
    · intro target caller item start next h hi hpr
      have hf : io.fileOf items caller = some (io.file item) := by
        rw [PathIo.fileOf, hi]
        rfl
      obtain ⟨hd, ho, hat, hn⟩ := hpr.directed hf ⟨h.1.standing, h.1.directed⟩ h.2.1 h.2.2
      constructor
      · intro hno
        exact ⟨hd, hat (by simp [hno]), ho⟩
      intro newlyOpened hso
      refine ⟨hd, ?_, ho, hn (by simp [hso])⟩
      rintro rfl
      exact hat (by simp [hso])
    · intro target caller item newlyOpened op ⟨hd, hat, ho, hf⟩ hi hop
      have hs : op.stays = true := by cases op <;> first | rfl | cases hop
      have hsa : ∀ file : FileRef,
          (∀ conn, PathIoTarget.Reaches server w target.compound conn → file.At conn) →
          ∀ conn, PathIoTarget.Reaches server w (target.push caller [op] 1).compound conn →
            file.At conn := by
        intro file hb conn hr
        rw [PathIoTarget.compound_push] at hr
        obtain ⟨middle, hm, hru⟩ := hr.split
        obtain ⟨hc, -, ht⟩ := execute_stays (by simpa using hs) hru
        exact (hb middle hm).of_same hc ht
      refine ⟨?_, hat, ?_, hsa _ hf⟩
      · apply hd.stay hs
        intro _
        exact ⟨io.file item, by rw [PathIo.fileOf, hi]; rfl, hf⟩
      · intro path hp hfh
        exact hsa _ (ho path hp hfh)
    intro target caller item newlyOpened ⟨hd, hat, ho, hf⟩
    cases newlyOpened with
    | false => exact ⟨⟨hd.standing, hd.directed⟩, hat rfl, ho⟩
    | true =>
      refine ⟨⟨?_, hd.directed⟩, rfl, ho⟩
      intro conn hr
      have hst := hd.standing conn hr
      exact ⟨hst.wellFormed, hst.saved⟩
  exact ha.1

end Directed

section Compound

variable {α : Type} {server : FileServer α} {w : World α} {ops : List ArgOp}

/-- Where nothing disturbs it, an open file stays the current filehandle. -/
theorem current_of_keeps {i j : Nat} {conn conn' : Conn α} (hij : i ≤ j)
    (hkp : ∀ m op, i ≤ m → m < j → ops[m]? = some op → op.bracket = .keeps)
    (hc : server.execute ⟨w, none, none⟩ (ops.take i) = .ok conn)
    (hc' : server.execute ⟨w, none, none⟩ (ops.take j) = .ok conn') :
    conn'.current = conn.current := by
  have hs : ops.take j = ops.take i ++ (ops.drop i).take (j - i) := by
    rw [← take_add, Nat.add_sub_cancel' hij]
  rw [hs, execute_append, hc] at hc'
  refine execute_current ?_ hc'
  intro op hop
  obtain ⟨m, hg⟩ := mem_iff_getElem?.mp hop
  have hm := (List.getElem?_eq_some_iff.mp hg).1
  rw [length_take] at hm
  rw [getElem?_take_of_lt (by omega), getElem?_drop] at hg
  exact hkp (i + m) op (by omega) (by omega) hg

theorem ArgOp.bracket_eq_opens {op : ArgOp} :
    op.bracket = .opens ↔ ∃ args, op = .openFile args := by
  cases op <;> simp [bracket]

theorem ArgOp.bracket_eq_closes {op : ArgOp} :
    op.bracket = .closes ↔ ∃ seqid stateid, op = .close seqid stateid := by
  cases op <;> simp [bracket]

variable (server) in
/-- The compounds of path I/O that close their files, from any position of the
vector and for any limits. An OPEN has one CLOSE, before the next OPEN, at which
the current filehandle is the one the OPEN left. Operations on the file of an
item find that file. The map counts what each item appended. -/
theorem PathIo.compound_paired {T : Type} {io : PathIo T} {owner : PathIoOwner} {items : List T}
    {budget maxItems global partOff : Nat} {failed : Option (Nat × Status)}
    {chunk : PathIoChunk io}
    (hpack : io.pack true owner items.length budget maxItems (items.drop global)
      {global := global, partOff := partOff, failed := failed} = .ok chunk)
    (last : Nat) (hwf : w.tree.WellFormed) :
    let sent := chunk.closeLast true last
    let ops := sent.compound
    (∀ i args, ops[i]? = some (.openFile args) → ∃ j, i < j ∧
      (∃ seqid stateid, ops[j]? = some (.close seqid stateid)) ∧
      (∀ m op, i < m → m < j → ops[m]? = some op → op.bracket = .keeps) ∧
      (∀ j' seqid stateid, i < j' → ops[j']? = some (.close seqid stateid) → j' = j ∨
        ∃ m args', j < m ∧ m < j' ∧ ops[m]? = some (.openFile args')) ∧
      ∀ conn conn', server.execute ⟨w, none, none⟩ (ops.take (i + 1)) = .ok conn →
        server.execute ⟨w, none, none⟩ (ops.take j) = .ok conn' →
        conn'.current = conn.current) ∧
    (∀ i caller op, sent.ops[i]? = some (caller, op) → op.onFile = true →
      ∃ item, items[caller]? = some item ∧
        ∀ conn, server.execute ⟨w, none, none⟩ (ops.take i) = .ok conn → (io.file item).At conn) ∧
    ∀ packed, io.Packing true owner items packed → packed.ops.length < usizeMax →
      packed.map.next = 1 + packed.ops.length := by
  have packing : io.Packing true owner items chunk :=
    (PathIo.Packing.start global partOff failed).pack rfl hpack
  have hmatched := matched_of_scan _ (packing.bracketed.closeLast last)
  have hsent : (chunk.closeLast true last).Directed server w (io.fileOf items) := by
    unfold PathIoTarget.closeLast
    split
    · exact packing.directed hwf |>.stay rfl fun hon => nomatch hon
    · exact packing.directed hwf
  refine ⟨?_, ?_, ?_⟩
  · intro i args hopen
    obtain ⟨j, c, hij, hc, hcloses, hkeeps, honce⟩ := hmatched i _ hopen rfl
    obtain ⟨seqid, stateid, rfl⟩ := bracket_eq_closes.mp hcloses
    refine ⟨j, hij, ⟨seqid, stateid, hc⟩, hkeeps, ?_, ?_⟩
    · intro j' seqid' stateid' hj' hc'
      rcases honce j' _ hj' hc' rfl with heq | ⟨m, b, hjm, hmj, hb, hopens⟩
      · exact .inl heq
      · obtain ⟨args', rfl⟩ := bracket_eq_opens.mp hopens
        exact .inr ⟨m, args', hjm, hmj, hb⟩
    · intro conn conn' hconn hconn'
      exact current_of_keeps hij (fun m op him hmj hop => hkeeps m op him hmj hop) hconn hconn'
  · intro i caller op hop hon
    obtain ⟨file, hfile, hat⟩ := hsent.directed i caller op hop hon
    obtain ⟨item, hitem, rfl⟩ := map_eq_some_iff.mp hfile
    exact ⟨item, hitem, hat⟩
  intro packed hpacked hlength
  rw [hpacked.counted]
  unfold saturatingAdd
  omega

theorem PathIo.compound_paired_twice :
    let items : List PathWriteOp :=
      [⟨.path [97], 0, [1], true, true, none⟩, ⟨.path [98], 0, [2], false, true, none⟩]
    ∃ chunk, (writevPath ⟨4096, 4096⟩).pack true ⟨[7], 0⟩ items.length 64 2 (items.drop 0)
        {global := 0, partOff := 0, failed := none} = .ok chunk ∧
      ∃ j, 2 < j ∧ ∃ seqid stateid,
        (chunk.closeLast true 1).compound[j]? = some (.close seqid stateid) := by
  intro items
  let server : FileServer Unit := {
    perform _ _ := .ok ()
    created _ := ()
    allocate _ := none
    allocate_file _ _ h := by cases h
    refuses _ _ _ := none}
  let w : World Unit := ⟨.ofTable ⟨[0]⟩ [] [], fun _ => some (), []⟩
  have hwf : w.tree.WellFormed := NameTree.ofTable_wellFormed (by decide) (by decide) (by decide)
  have heval : (((writevPath ⟨4096, 4096⟩).pack true ⟨[7], 0⟩ items.length 64 2 (items.drop 0)
      {global := 0, partOff := 0, failed := none}).toOption.bind
        fun chunk => (chunk.closeLast true 1).compound[2]?) =
      some (.openFile ⟨0, shareAccessBoth, [7], .unchecked none true, some [97]⟩) := by
    decide +kernel
  cases hpacked : (writevPath ⟨4096, 4096⟩).pack true ⟨[7], 0⟩ items.length 64 2 (items.drop 0)
      {global := 0, partOff := 0, failed := none} with
  | error error =>
    rw [hpacked] at heval
    cases heval
  | ok chunk =>
    rw [hpacked] at heval
    obtain ⟨j, hj, hclose, -⟩ := (PathIo.compound_paired server hpacked 1 hwf).1 2 _ heval
    exact ⟨chunk, rfl, j, hj, hclose⟩

end Compound

end Vnfs
