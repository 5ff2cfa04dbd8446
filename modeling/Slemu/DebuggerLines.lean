import Slemu.Debugger
import Slemu.EventJson

/-! What the debugger writes: every answer is one line with one JSON object that says it. -/

namespace Slemu
open Json (Out Val isPlain)
variable {F : Type}

/-! ### The lines -/

def DbgBreakpoint.item (bp : DbgBreakpoint) : Bytes :=
  lit "\x7b\"id\":" ++ decBytes bp.id ++ lit ",\"file\":" ++ jEmitStr (bp.file.getD []) ++
    lit ",\"line\":" ++ decBytes bp.line ++ lit ",\"hits\":" ++ decBytes bp.hitCount ++
    lit ",\"enabled\":" ++ decBytes (if bp.enabled then 1 else 0) ++ lit "\x7d"

def DbgCatchpoint.item (cp : DbgCatchpoint) : Bytes :=
  lit "\x7b\"id\":" ++ decBytes cp.id ++ lit ",\"kind\":" ++ jEmitStr cp.kind ++ lit "\x7d"

def namedItem (v : Named) : Bytes :=
  lit "\x7b\"name\":" ++ jEmitStr v.1 ++ lit ",\"type\":\"" ++ v.2.1 ++ lit "\",\"value\":" ++
    jEmitStr v.2.2 ++ lit "\x7d"

def depthItem (depth : ℤ) : Bytes := lit "\x7b\"depth\":" ++ decBytes depth ++ lit "\x7d"

variable [CDouble F]

/-- What is written for an object: `j_str` is `j_emit_str` again. -/
def DbgMsg.line (groups : List Group) : DbgMsg F → Bytes
  | .running => lit "\x7b\"dbg\":\"running\"\x7d\n"
  | .breakpoint bp =>
    lit "\x7b\"dbg\":\"breakpoint\",\"id\":" ++ decBytes bp.id ++ lit ",\"file\":" ++
      jEmitStr (bp.file.getD []) ++ lit ",\"line\":" ++ decBytes bp.line ++ lit "\x7d\n"
  | .stopped reason script line =>
    lit "\x7b\"dbg\":\"stopped\",\"reason\":\"" ++ reason ++ lit "\"" ++
      (script.toList.flatMap fun s => lit ",\"script\":" ++ jEmitStr s) ++
      (if 0 < line then lit ",\"line\":" ++ decBytes line else []) ++ lit "\x7d\n"
  | .breakpoints bps =>
    lit "\x7b\"dbg\":\"breakpoints\",\"items\":[" ++ Json.items (bps.map DbgBreakpoint.item) ++
      lit "]\x7d\n"
  | .catchpoint cp =>
    lit "\x7b\"dbg\":\"catchpoint\",\"id\":" ++ decBytes cp.id ++ lit ",\"kind\":" ++
      jEmitStr cp.kind ++ lit "\x7d\n"
  | .catchpoints cps =>
    lit "\x7b\"dbg\":\"catchpoints\",\"items\":[" ++ Json.items (cps.map DbgCatchpoint.item) ++
      lit "]\x7d\n"
  | .value v =>
    lit "\x7b\"dbg\":\"value\",\"name\":" ++ jEmitStr v.1 ++ lit ",\"type\":\"" ++ v.2.1 ++
      lit "\",\"value\":" ++ jEmitStr v.2.2 ++ lit "\x7d\n"
  | .locals items =>
    lit "\x7b\"dbg\":\"locals\",\"items\":[" ++ Json.items (items.map namedItem) ++ lit "]\x7d\n"
  | .globals items =>
    lit "\x7b\"dbg\":\"globals\",\"items\":[" ++ Json.items (items.map namedItem) ++ lit "]\x7d\n"
  | .frames depths =>
    lit "\x7b\"dbg\":\"frames\",\"frames\":[" ++ Json.items (depths.map depthItem) ++ lit "]\x7d\n"
  | .caught kind detail =>
    lit "\x7b\"dbg\":\"caught\",\"kind\":" ++ jEmitStr kind ++
      (detail.toList.flatMap fun t => lit ",\"detail\":" ++ jEmitStr t) ++ lit "\x7d\n"
  | .error msg => lit "\x7b\"dbg\":\"error\",\"msg\":" ++ jEmitStr msg ++ lit "\x7d\n"
  | .snapshot w => snapshotLine groups w
  | .exit => lit "\x7b\"dbg\":\"exit\"\x7d\n"

/-! ### What they should say -/

def DbgBreakpoint.meant (bp : DbgBreakpoint) : List (Bytes × Val) :=
  [(lit "id", .num (decBytes bp.id)), (lit "file", .str (bp.file.getD [])),
    (lit "line", .num (decBytes bp.line)), (lit "hits", .num (decBytes bp.hitCount)),
    (lit "enabled", .num (decBytes (if bp.enabled then 1 else 0)))]

def DbgCatchpoint.meant (cp : DbgCatchpoint) : List (Bytes × Val) :=
  [(lit "id", .num (decBytes cp.id)), (lit "kind", .str cp.kind)]

def namedMeant (v : Named) : List (Bytes × Val) :=
  [(lit "name", .str v.1), (lit "type", .str v.2.1), (lit "value", .str v.2.2)]

/-- The members of an object of the debugger, behind its kind. -/
def DbgMsg.meant (groups : List Group) : DbgMsg F → List (Bytes × Val)
  | .running => [(lit "dbg", .str (lit "running"))]
  | .breakpoint bp => (lit "dbg", .str (lit "breakpoint")) :: bp.meant.take 3
  | .stopped reason script line =>
    (lit "dbg", .str (lit "stopped")) :: (lit "reason", .str reason) ::
      (script.toList.map (fun s => (lit "script", .str s)) ++
        if 0 < line then [(lit "line", .num (decBytes line))] else [])
  | .breakpoints bps =>
    [(lit "dbg", .str (lit "breakpoints")),
      (lit "items", .arr (bps.map fun bp => .obj bp.meant))]
  | .catchpoint cp => (lit "dbg", .str (lit "catchpoint")) :: cp.meant
  | .catchpoints cps =>
    [(lit "dbg", .str (lit "catchpoints")),
      (lit "items", .arr (cps.map fun cp => .obj cp.meant))]
  | .value v => (lit "dbg", .str (lit "value")) :: namedMeant v
  | .locals items =>
    [(lit "dbg", .str (lit "locals")),
      (lit "items", .arr (items.map fun v => .obj (namedMeant v)))]
  | .globals items =>
    [(lit "dbg", .str (lit "globals")),
      (lit "items", .arr (items.map fun v => .obj (namedMeant v)))]
  | .frames depths =>
    [(lit "dbg", .str (lit "frames")),
      (lit "frames", .arr (depths.map fun i => .obj [(lit "depth", .num (decBytes i))]))]
  | .caught kind detail =>
    (lit "dbg", .str (lit "caught")) :: (lit "kind", .str kind) ::
      detail.toList.map fun t => (lit "detail", .str t)
  | .error msg => [(lit "dbg", .str (lit "error")), (lit "msg", .str msg)]
  | .snapshot w => snapshotSays groups w
  | .exit => [(lit "dbg", .str (lit "exit"))]

/-- What is printed without `j_str` is plain. -/
def DbgMsg.Clean (groups : List Group) : DbgMsg F → Prop
  | .stopped reason _ _ => IsPlain reason
  | .value v => IsPlain v.2.1
  | .locals items | .globals items => ∀ v ∈ items, IsPlain v.2.1
  | .snapshot w => IsNumber (CDouble.fmt 3 w.virtualNow) ∧ (∀ a ∈ w.avatars, a.Plain) ∧
      (∀ g ∈ groups, g.Plain) ∧ (∀ t ∈ w.scripts, t.Plain) ∧ ∀ d ∈ w.dialogs, d.Plain
  | _ => True

/-! ### The lines as texts put together -/

def strOut (b : Bytes) : Out := .esc (escStr b) b

def intOut (i : ℤ) : Out := .num (decBytes i)

def DbgBreakpoint.out (bp : DbgBreakpoint) : List (Bytes × Out) :=
  [(lit "id", intOut bp.id), (lit "file", strOut (bp.file.getD [])), (lit "line", intOut bp.line),
    (lit "hits", intOut bp.hitCount), (lit "enabled", intOut (if bp.enabled then 1 else 0))]

def DbgCatchpoint.out (cp : DbgCatchpoint) : List (Bytes × Out) :=
  [(lit "id", intOut cp.id), (lit "kind", strOut cp.kind)]

def namedOut (v : Named) : List (Bytes × Out) :=
  [(lit "name", strOut v.1), (lit "type", .raw v.2.1), (lit "value", strOut v.2.2)]

def listOut {α : Type} (key : String) (f : α → List (Bytes × Out)) (l : List α) :
    List (Bytes × Out) := [(lit key, .arr (l.map fun x => .obj (f x)))]

def DbgMsg.members : DbgMsg F → List (Bytes × Out)
  | .running => [(lit "dbg", .raw (lit "running"))]
  | .breakpoint bp => (lit "dbg", .raw (lit "breakpoint")) :: bp.out.take 3
  | .stopped reason script line =>
    (lit "dbg", .raw (lit "stopped")) :: (lit "reason", .raw reason) ::
      (script.toList.map (fun s => (lit "script", strOut s)) ++
        if 0 < line then [(lit "line", intOut line)] else [])
  | .breakpoints bps =>
    (lit "dbg", .raw (lit "breakpoints")) :: listOut "items" DbgBreakpoint.out bps
  | .catchpoint cp => (lit "dbg", .raw (lit "catchpoint")) :: cp.out
  | .catchpoints cps =>
    (lit "dbg", .raw (lit "catchpoints")) :: listOut "items" DbgCatchpoint.out cps
  | .value v => (lit "dbg", .raw (lit "value")) :: namedOut v
  | .locals items => (lit "dbg", .raw (lit "locals")) :: listOut "items" namedOut items
  | .globals items => (lit "dbg", .raw (lit "globals")) :: listOut "items" namedOut items
  | .frames depths =>
    (lit "dbg", .raw (lit "frames")) :: listOut "frames" (fun i => [(lit "depth", intOut i)]) depths
  | .caught kind detail =>
    (lit "dbg", .raw (lit "caught")) :: (lit "kind", strOut kind) ::
      detail.toList.map fun t => (lit "detail", strOut t)
  | .error msg => [(lit "dbg", .raw (lit "error")), (lit "msg", strOut msg)]
  | .snapshot _ => []
  | .exit => [(lit "dbg", .raw (lit "exit"))]

theorem strOut_render (b : Bytes) : (strOut b).render = jEmitStr b := escStr_text b

omit [CDouble F] in
theorem DbgBreakpoint.item_eq (bp : DbgBreakpoint) : bp.item = (Out.obj bp.out).render := by
  rw [item, out]
  simp only [Out.render, Out.renderMembers, strOut_render, Json.items, List.flatMap_cons,
    List.flatMap_nil, List.append_assoc, List.cons_append, List.nil_append, intOut]
  rfl

theorem DbgCatchpoint.item_eq (cp : DbgCatchpoint) : cp.item = (Out.obj cp.out).render := by
  rw [item, out]
  simp only [Out.render, Out.renderMembers, strOut_render, Json.items, List.flatMap_cons,
    List.flatMap_nil, List.append_assoc, List.cons_append, List.nil_append, intOut]
  rfl

theorem namedItem_eq (v : Named) : namedItem v = (Out.obj (namedOut v)).render := by
  rw [namedItem, namedOut]
  simp only [Out.render, Out.renderMembers, strOut_render, Json.items, List.flatMap_cons,
    List.flatMap_nil, List.append_assoc, List.cons_append, List.nil_append]
  rfl

theorem depthItem_eq (i : ℤ) : depthItem i = (Out.obj [(lit "depth", intOut i)]).render := by
  rw [depthItem]
  simp only [Out.render, Out.renderMembers, Json.items, List.flatMap_nil, List.append_assoc,
    List.cons_append, List.nil_append, intOut]
  rfl

/-- A list of objects as the loops over the items write it. -/
theorem items_render {α : Type} {g : α → Bytes} {f : α → List (Bytes × Out)}
    (h : ∀ x, g x = (Out.obj (f x)).render) (l : List α) :
    Json.items (l.map g) = Json.items (Out.renderElems (l.map fun x => .obj (f x))) := by
  rw [Out.renderElems_eq, List.map_map]
  exact congrArg Json.items (List.map_congr_left fun x _ => h x)

omit [CDouble F] in
theorem dbg_render (kind : String) (ms : List (Bytes × Out)) :
    (Out.obj ((lit "dbg", .raw (lit kind)) :: ms)).render ++ [10] =
      lit "\x7b\"dbg\":\"" ++
        (lit kind ++ (lit "\"" ++ (ms.flatMap memberBytes ++ lit "\x7d\n"))) := by
  have hl : lit "\x7d\n" = [125, 10] := by decide +kernel
  rw [Out.render, Out.renderMembers_eq, List.map_cons, Json.items, List.flatMap_map, hl]
  simp only [Out.render, List.append_assoc, List.cons_append, List.nil_append]
  rfl

omit [CDouble F] in
/-- An object with one list. -/
theorem dbg_list (kind key : String) {α : Type} {g : α → Bytes} {f : α → List (Bytes × Out)}
    (h : ∀ x, g x = (Out.obj (f x)).render) (l : List α) :
    (Out.obj ((lit "dbg", .raw (lit kind)) :: listOut key f l)).render ++ [10] =
      lit "\x7b\"dbg\":\"" ++ (lit kind ++ (lit "\",\"" ++ (lit key ++ (lit "\":[" ++
        (Json.items (l.map g) ++ lit "]\x7d\n"))))) := by
  rw [dbg_render, items_render h, listOut]
  simp only [List.flatMap_cons, List.flatMap_nil, memberBytes, Out.render, List.append_assoc,
    List.cons_append, List.nil_append]
  rfl

theorem DbgMsg.line_eq (groups : List Group) (m : DbgMsg F) (hm : ∀ w, m ≠ .snapshot w) :
    m.line groups = (Out.obj m.members).render ++ [10] := by
  cases m with
  | snapshot w => exact absurd rfl (hm w)
  | running => rfl
  | exit => rfl
  | breakpoint bp =>
    rw [members, dbg_render, line, DbgBreakpoint.out]
    simp only [List.take, List.flatMap_cons, List.flatMap_nil, memberBytes, strOut_render, intOut,
      Out.render, List.append_assoc, List.cons_append, List.nil_append]
    rfl
  | stopped reason script line =>
    have hline : (if 0 < line then lit ",\"line\":" ++ decBytes line else []) =
        (if 0 < line then [(lit "line", intOut line)] else []).flatMap memberBytes := by
      split
      · simp only [List.flatMap_cons, List.flatMap_nil, memberBytes, intOut, Out.render,
          List.append_nil, List.cons_append]
        rfl
      · rfl
    have hscript : (script.toList.flatMap fun s => lit ",\"script\":" ++ jEmitStr s) =
        (script.toList.map fun s => (lit "script", strOut s)).flatMap memberBytes := by
      rw [List.flatMap_map]
      refine List.flatMap_congr fun s _ => ?_
      simp only [memberBytes, strOut_render, List.cons_append]
      rfl
    rw [members, dbg_render, DbgMsg.line, hline, hscript]
    simp only [List.flatMap_cons, List.flatMap_append, memberBytes, Out.render, List.append_assoc,
      List.cons_append, List.nil_append]
    rfl
  | breakpoints bps =>
    rw [members, dbg_list "breakpoints" "items" DbgBreakpoint.item_eq, line, List.append_assoc]
    rfl
  | catchpoint cp =>
    rw [members, dbg_render, line, DbgCatchpoint.out]
    simp only [List.flatMap_cons, List.flatMap_nil, memberBytes, strOut_render, intOut,
      Out.render, List.append_assoc, List.cons_append, List.nil_append]
    rfl
  | catchpoints cps =>
    rw [members, dbg_list "catchpoints" "items" DbgCatchpoint.item_eq, line, List.append_assoc]
    rfl
  | value v =>
    rw [members, dbg_render, line, namedOut]
    simp only [List.flatMap_cons, List.flatMap_nil, memberBytes, strOut_render, Out.render,
      List.append_assoc, List.cons_append, List.nil_append]
    rfl
  | locals items =>
    rw [members, dbg_list "locals" "items" namedItem_eq, line, List.append_assoc]
    rfl
  | globals items =>
    rw [members, dbg_list "globals" "items" namedItem_eq, line, List.append_assoc]
    rfl
  | frames depths =>
    rw [members, dbg_list "frames" "frames" depthItem_eq, line, List.append_assoc]
    rfl
  | caught kind detail =>
    have hdetail : (detail.toList.flatMap fun t => lit ",\"detail\":" ++ jEmitStr t) =
        (detail.toList.map fun t => (lit "detail", strOut t)).flatMap memberBytes := by
      rw [List.flatMap_map]
      refine List.flatMap_congr fun t _ => ?_
      simp only [memberBytes, strOut_render, List.cons_append]
      rfl
    rw [members, dbg_render, line, hdetail]
    simp only [List.flatMap_cons, memberBytes, strOut_render, List.append_assoc, List.cons_append]
    rfl
  | error msg =>
    rw [members, dbg_render, line]
    simp only [List.flatMap_cons, List.flatMap_nil, memberBytes, strOut_render, List.append_assoc,
      List.cons_append, List.nil_append]
    rfl

/-! ### What they say -/

theorem DbgMsg.meaning_eq (groups : List Group) (m : DbgMsg F) (hm : ∀ w, m ≠ .snapshot w) :
    (Out.obj m.members).meaning = .obj (m.meant groups) := by
  rw [Out.meaning, Out.memberMeanings_eq]
  cases m with
  | snapshot w => exact absurd rfl (hm w)
  | stopped reason script line =>
    rw [members, meant, List.map_cons, List.map_cons, List.map_append, List.map_map]
    split
    · rfl
    · rfl
  | breakpoints _ | catchpoints _ | locals _ | globals _ | frames _ =>
    simp only [members, meant, listOut, List.map_cons, List.map_nil, Out.meaning,
      Out.elemMeanings_eq, List.map_map]
    rfl
  | caught kind detail =>
    rw [members, meant, List.map_cons, List.map_cons, List.map_map]
    rfl
  | _ => rfl

theorem strOut_good (b : Bytes) : (strOut b).Good := Out.good_esc.mpr (decode_escStr b)

theorem intOut_good (i : ℤ) : (intOut i).Good := good_decBytes i

omit [CDouble F] in
/-- The keys and the kind of an object are fixed. -/
theorem dbg_good {kind : String} (hkind : IsPlain (lit kind)) {ms : List (Bytes × Out)}
    (hk : ∀ m ∈ ms, IsPlain m.1) :
    (Out.obj ((lit "dbg", .raw (lit kind)) :: ms)).Good ↔ ∀ m ∈ ms, m.2.Good := by
  have hdbg : IsPlain (lit "dbg") := by decide +kernel
  rw [Out.good_obj, List.forall_mem_cons]
  constructor
  · exact fun h m hm => (h.2 m hm).2
  · exact fun h => ⟨⟨hdbg, Out.good_raw.mpr hkind⟩, fun m hm => ⟨hk m hm, h m hm⟩⟩

omit [CDouble F] in
theorem listOut_good {α : Type} {key : String} {f : α → List (Bytes × Out)} {l : List α} :
    (∀ m ∈ listOut key f l, m.2.Good) ↔ ∀ x ∈ l, (Out.obj (f x)).Good := by
  rw [listOut, List.forall_mem_singleton, Out.good_arr, List.forall_mem_map]

omit [CDouble F] in
theorem DbgBreakpoint.out_good (bp : DbgBreakpoint) : (Out.obj bp.out).Good := by
  have hk : ∀ k ∈ [lit "id", lit "file", lit "line", lit "hits", lit "enabled"], IsPlain k := by
    decide +kernel
  refine (good_obj_of_keys hk rfl).mpr ?_
  simp [out, intOut_good, strOut_good]

omit [CDouble F] in
theorem DbgCatchpoint.out_good (cp : DbgCatchpoint) : (Out.obj cp.out).Good := by
  have hk : ∀ k ∈ [lit "id", lit "kind"], IsPlain k := by decide +kernel
  refine (good_obj_of_keys hk rfl).mpr ?_
  simp [out, intOut_good, strOut_good]

omit [CDouble F] in
theorem namedOut_good (v : Named) : (Out.obj (namedOut v)).Good ↔ IsPlain v.2.1 := by
  have hk : ∀ k ∈ [lit "name", lit "type", lit "value"], IsPlain k := by decide +kernel
  refine (good_obj_of_keys hk rfl).trans ?_
  simp [namedOut, strOut_good, Out.good_raw, IsPlain]

/-- Nothing of the debugger but a snapshot has a text that can do harm. -/
theorem DbgMsg.good_iff (groups : List Group) (m : DbgMsg F) (hm : ∀ w, m ≠ .snapshot w) :
    (Out.obj m.members).Good ↔ m.Clean groups := by
  have hitems : IsPlain (lit "items") := by decide +kernel
  have hone {kind key : String} (hkind : IsPlain (lit kind)) (hkey : IsPlain (lit key)) {α : Type}
      {f : α → List (Bytes × Out)} {l : List α} :
      (Out.obj ((lit "dbg", .raw (lit kind)) :: listOut key f l)).Good ↔
        ∀ x ∈ l, (Out.obj (f x)).Good :=
    (dbg_good hkind (List.forall_mem_singleton.mpr hkey)).trans listOut_good
  cases m with
  | snapshot w => exact absurd rfl (hm w)
  | running => exact iff_of_true ((dbg_good (by decide +kernel) (by simp)).mpr (by simp)) trivial
  | exit => exact iff_of_true ((dbg_good (by decide +kernel) (by simp)).mpr (by simp)) trivial
  | breakpoint bp =>
    refine iff_of_true ((dbg_good (by decide +kernel) ?_).mpr ?_) trivial
    · simp [DbgBreakpoint.out, lit, IsPlain, isPlain]
    · simp [DbgBreakpoint.out, intOut_good, strOut_good]
  | catchpoint cp =>
    refine iff_of_true ((dbg_good (by decide +kernel) ?_).mpr ?_) trivial
    · simp [DbgCatchpoint.out, lit, IsPlain, isPlain]
    · simp [DbgCatchpoint.out, intOut_good, strOut_good]
  | stopped reason script line =>
    refine (dbg_good (by decide +kernel) ?_).trans ?_
    · cases script <;> split <;> simp [lit, IsPlain, isPlain]
    · cases script <;> split <;>
        simp [Out.good_raw, intOut_good, strOut_good, Clean, IsPlain]
  | breakpoints bps =>
    exact (hone (by decide +kernel) hitems).trans
      (iff_of_true (fun bp _ => bp.out_good) trivial)
  | catchpoints cps =>
    exact (hone (by decide +kernel) hitems).trans
      (iff_of_true (fun cp _ => cp.out_good) trivial)
  | value v =>
    refine (dbg_good (by decide +kernel) ?_).trans ?_
    · simp [namedOut, lit, IsPlain, isPlain]
    · simp [namedOut, strOut_good, Out.good_raw, Clean, IsPlain]
  | locals items =>
    exact (hone (by decide +kernel) hitems).trans (forall₂_congr fun v _ => namedOut_good v)
  | globals items =>
    exact (hone (by decide +kernel) hitems).trans (forall₂_congr fun v _ => namedOut_good v)
  | frames depths =>
    refine (hone (by decide +kernel) (by decide +kernel)).trans
      (iff_of_true (fun i _ => ?_) trivial)
    have hk : ∀ k ∈ [lit "depth"], IsPlain k := by decide +kernel
    exact (good_obj_of_keys hk rfl).mpr (List.forall_mem_singleton.mpr (intOut_good i))
  | caught kind detail =>
    refine iff_of_true ((dbg_good (by decide +kernel) ?_).mpr ?_) trivial
    · cases detail <;> simp [lit, IsPlain, isPlain]
    · cases detail <;> simp [strOut_good]
  | error msg =>
    refine iff_of_true ((dbg_good (by decide +kernel) ?_).mpr ?_) trivial
    · simp [lit, IsPlain, isPlain]
    · simp [strOut_good]

theorem DbgMsg.isEventLine_iff (groups : List Group) (m : DbgMsg F) :
    IsEventLine (m.line groups) (m.meant groups) ↔ m.Clean groups := by
  by_cases hm : ∃ w, m = .snapshot w
  · obtain ⟨w, rfl⟩ := hm
    exact snapshot_isEventLine groups w
  · have hm' : ∀ w, m ≠ .snapshot w := fun w h => hm ⟨w, h⟩
    exact (Slemu.isEventLine_iff (m.line_eq groups hm') (m.meaning_eq groups hm')).trans
      (m.good_iff groups hm')

/-! ### Sessions -/

omit [CDouble F] in
theorem svTypeName_plain (v : SValue F) : IsPlain (svTypeName v) := by
  cases v <;> simp [svTypeName, lit, IsPlain, isPlain]

/-- Whatever is no snapshot is clean. -/
def Tidy (m : DbgMsg F) : Prop := ∀ groups, (∀ w, m ≠ .snapshot w) → m.Clean groups

def DbgState.Tidy (d : DbgState F) : Prop := ∀ m ∈ d.evtOut, Slemu.Tidy m

variable {d : DbgState F}

theorem DbgState.Tidy.emit {m : DbgMsg F} (h : d.Tidy) (hm : Slemu.Tidy m) : (d.emit m).Tidy :=
  List.forall_mem_append.mpr ⟨h, List.forall_mem_singleton.mpr hm⟩

theorem DbgState.Tidy.obey (h : d.Tidy) (w : World F) (c : DbgCommand) :
    (d.obey w c).1.2.Tidy := by
  have hfree {d : DbgState F} (h : d.Tidy) {m : DbgMsg F} (hm : ∀ groups, m.Clean groups) :
      (d.emit m).Tidy := h.emit fun groups _ => hm groups
  cases c with
  | none => exact h
  | continue_ => exact hfree h fun _ => trivial
  | step => exact hfree h fun _ => trivial
  | quit => exact h
  | break_ file line =>
    refine DbgState.Tidy.emit h ?_
    exact fun _ _ => trivial
  | clear id =>
    refine DbgState.Tidy.emit h ?_
    exact fun _ _ => trivial
  | breakpoints =>
    refine DbgState.Tidy.emit (DbgState.Tidy.emit h ?_) ?_
    · exact fun _ _ => trivial
    · exact fun _ _ => trivial
  | catch_ kind =>
    rw [DbgState.obey]
    split
    · exact h
    · exact hfree h fun _ => trivial
  | uncatch id =>
    refine DbgState.Tidy.emit h ?_
    exact fun _ _ => trivial
  | print name =>
    rw [DbgState.obey]
    cases resolveName (d.curScript.map w.script) (w.framesFrom d.curFrame) name with
    | some v => exact hfree h fun _ => svTypeName_plain v
    | none => exact hfree h fun _ => trivial
  | locals =>
    refine hfree h fun _ v hv => ?_
    obtain ⟨f, -, hv⟩ := List.mem_flatMap.mp hv
    obtain ⟨b, -, rfl⟩ := List.mem_map.mp hv
    exact svTypeName_plain b.val
  | globals =>
    refine hfree h fun _ v hv => ?_
    unfold World.globalsOf at hv
    split at hv
    · obtain ⟨g, -, rfl⟩ := List.mem_map.mp hv
      exact svTypeName_plain _
    · cases hv
  | backtrace => exact hfree h fun _ => trivial
  | snapshot => exact h.emit fun _ hw => absurd rfl (hw w)
  | unknown => exact hfree h fun _ => trivial

theorem DbgState.Tidy.pauseLoop (h : d.Tidy) (w : World F) (lines : List Bytes) :
    (pauseLoop w d lines).2.Tidy := by
  induction lines generalizing w d with
  | nil => exact h
  | cons line rest ih =>
    have hread : ({ d with cmdIn := rest } : DbgState F).Tidy := h
    have hobey := hread.obey w (dbgCommand line)
    rw [Slemu.pauseLoop]
    split
    · exact ih hobey _
    · exact hobey

theorem DbgState.Tidy.stop (h : d.Tidy) (w : World F) {reason : Bytes} (hr : IsPlain reason)
    (s : Option ℕ) (line : ℤ) : (d.stop w reason s line).2.Tidy := by
  have hpaused : ({ d with mode := .paused } : DbgState F).Tidy := h
  have hm : Slemu.Tidy (.stopped reason (s.map fun s => (w.script s).name) line : DbgMsg F) :=
    fun _ _ => hr
  exact (hpaused.emit hm).pauseLoop w d.cmdIn

theorem DbgState.Tidy.call (h : d.Tidy) (w : World F) (hook : DbgHook) :
    (hook.call w d).2.Tidy := by
  cases hook with
  | handshake s =>
    rw [DbgHook.call, dbgHandshakePause]
    split
    · exact h
    · exact DbgState.Tidy.stop (d := { d with curScript := some s, curFrame := none }) h w
        (by decide +kernel) (some s) 0
  | stmt s line =>
    rw [DbgHook.call, dbgCheckStmt]
    dsimp only
    have hat (bps : List DbgBreakpoint) : ({ d with curScript := some s, bps := bps
                                                    curFrame := some w.frames.length } :
        DbgState F).Tidy := h
    split_ifs
    · exact h
    · exact (hat d.bps).stop w (by decide +kernel) (some s) line
    · cases hitAt line d.bps with
      | some bps => exact (hat bps).stop w (by decide +kernel) (some s) line
      | none => exact h
    · exact h
  | event s =>
    rw [DbgHook.call, dbgCheckEvent]
    split
    · exact h
    · exact h
  | catch_ kind detail =>
    rw [DbgHook.call, dbgCheckCatch]
    split_ifs
    · exact h
    · have hm : Slemu.Tidy (.caught kind detail : DbgMsg F) := fun _ _ => trivial
      exact (h.emit hm).stop w (by decide +kernel) d.curScript 0
    · exact h

theorem DbgState.Tidy.session (h : d.Tidy) (hs : List (World F × DbgHook)) :
    (session d hs).Tidy := by
  induction hs generalizing d with
  | nil => exact h
  | cons wh hs ih => exact ih (h.call wh.1 wh.2)

/-- Whatever the debugger writes in a session is one line with one JSON object that says what it
should, whatever is sent, and whatever the names and values of the scripts are; only a snapshot
needs texts without quotes, backslashes and control characters. -/
theorem debugger_lines (groups : List Group) (input : Bytes) (hs : List (World F × DbgHook))
    (m : DbgMsg F) (hm : m ∈ (session (dbgInit input) hs).evtOut) :
    IsEventLine (m.line groups) (m.meant groups) ↔
      ∀ w, m = .snapshot w → m.Clean groups := by
  have hinit : (dbgInit input : DbgState F).Tidy := List.forall_mem_nil _
  have htidy := hinit.session hs
  rw [m.isEventLine_iff groups]
  constructor
  · exact fun h w _ => h
  · intro h
    by_cases hw : ∃ w, m = .snapshot w
    · obtain ⟨w, hw⟩ := hw
      exact h w hw
    · exact htidy m hm groups fun w he => hw ⟨w, he⟩

/-- The first stop of a region. -/
theorem debugger_lines_entry :
    IsEventLine (DbgMsg.line [] (.stopped (lit "entry")
        (some ((jsonRegion [] []).world.script 0).name) 0 : DbgMsg ℚ))
      [(lit "dbg", .str (lit "stopped")), (lit "reason", .str (lit "entry")),
        (lit "script", .str ((jsonRegion [] []).world.script 0).name)] :=
  (debugger_lines [] [] [((jsonRegion [] []).world, .handshake 0)] _ List.mem_cons_self).mpr
    fun _ h => by cases h

end Slemu
