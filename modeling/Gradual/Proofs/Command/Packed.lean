import Gradual.Proofs.Command.Cached
import Gradual.Proofs.Types.Printing

/-!
A packed table answers like the one it was packed from. What reads back from the compiled form of a table is isomorphic
to it, and an isomorphism renames the types that names refer to: checks end alike, with an overflow too, and types have
the same text. So commands print the same for a file and for the file that was packed from it. Main statement:
`packed_answers_alike`.
-/
namespace Gradual

open Files

theorem Checker.decide_none_left (c : Checker) (g : Graph) (rel : Relation) (b : Child) :
    c.decide g rel none b = Trial.fail (.missing rel) := by
  cases rel <;> simp [decide, equal, subtype, equalWithin, subtypeWithin]

theorem Checker.decide_none_right (c : Checker) (g : Graph) (rel : Relation) (a : Child) :
    c.decide g rel a none = Trial.fail (.missing rel) := by
  cases rel <;> simp [decide, equal, subtype, equalWithin, subtypeWithin]

namespace Table

variable {t u : Table} {φ : TypeId → TypeId} {name : String} {x : TypeId}

/-- What names can stand for, and what these types refer to. -/
def Known (t : Table) (x : TypeId) : Prop := t.Reaches x ∨ ∃ p, t.graph.node x = .prim p

theorem known_of_tag? (rooted : t.graph.Rooted) (h : t.tag? name = some x) : t.Known x := by
  unfold tag? at h
  split at h
  next p _ =>
    cases h
    exact .inr ⟨p, rooted p⟩
  next => exact .inl (reaches_of_lookup h)

/-- Two tables that answer all questions about names alike: whether a relation holds, at any depth and with either
variance, and what text a type has. -/
structure Alike [Codec] (t u : Table) : Prop where
  names : u.names = t.names
  props : u.props = t.props
  digest : u.digest = t.digest
  defined : ∀ name, (u.tag? name).isSome = (t.tag? name).isSome
  decide : ∀ (c : Checker) (rel : Relation) (left right : String), c.oracle = Oracle.silent →
    c.decide u.graph rel (u.tag? left) (u.tag? right) = c.decide t.graph rel (t.tag? left) (t.tag? right)
  print : ∀ name, (u.tag? name).map u.print = (t.tag? name).map t.print

namespace Isomorphic

theorem renames (iso : Isomorphic φ t u) (sound : t.Sound) (rooted : u.graph.Rooted) :
    Graph.Renaming φ t.graph u.graph t.Known := by
  have node (x : TypeId) (known : t.Known x) : u.graph.node (φ x) = (t.graph.node x).mapTypes φ := by
    rcases known with reached | ⟨p, prim⟩
    · exact iso.node x reached
    · rw [iso.prim x p prim, rooted p, prim]
      rfl
  refine ⟨?_, node, ?_, ?_⟩
  · rintro x (reached | ⟨p, prim⟩)
    · exact sound.formed x reached
    · rw [prim]
      trivial
  · rintro x (reached | ⟨p, prim⟩) y edge
    · exact .inl (reached.child edge)
    · simp [Graph.children, prim, Node.children] at edge
  · intro x y knownX knownY same compound
    have other {z : TypeId} (image : φ z = φ x) (known : t.Known z) (p : Prim) : t.graph.node z ≠ .prim p := by
      intro prim
      have shape : ((t.graph.node x).mapTypes φ).isPrim = ((Node.prim p).mapTypes φ).isPrim := by
        rw [← node x knownX, ← image, node z known, prim]
      rw [Node.isPrim_mapTypes, compound] at shape
      cases shape
    have reached {z : TypeId} (image : φ z = φ x) (known : t.Known z) : t.Reaches z := by
      rcases known with reached | ⟨p, prim⟩
      · exact reached
      · exact absurd prim (other image (.inr ⟨p, prim⟩) p)
    have shared := iso.injective x y (reached rfl knownX) (reached same.symm knownY) same
    rwa [Graph.shared_of_not_prim (other rfl knownX), Graph.shared_of_not_prim (other same.symm knownY)] at shared

theorem tag? (iso : Isomorphic φ t u) (rooted : t.graph.Rooted) (name : String) :
    u.tag? name = (t.tag? name).map φ := by
  unfold Table.tag?
  cases Prim.ofName? name with
  | some p => rw [Option.map_some, iso.prim _ p (rooted p)]
  | none => exact iso.lookup name

theorem alike [Codec] (iso : Isomorphic φ t u) (sound : t.Sound) (rooted : u.graph.Rooted) : t.Alike u := by
  have ren := iso.renames sound rooted
  have tag := iso.tag? sound.rooted
  refine ⟨?_, iso.props, ?_, ?_, ?_, ?_⟩
  · simp [Table.names, iso.tags]
  · have again := iso.compile_eq sound.rooted rooted sound.formed
    rw [Table.digest, Table.digest, Table.encode, Table.encode, again]
  · intro name
    rw [tag name]
    cases t.tag? name <;> rfl
  · intro c rel left right quiet
    rw [tag left, tag right]
    cases first : t.tag? left with
    | none => rw [Option.map_none, Checker.decide_none_left, Checker.decide_none_left]
    | some a =>
      cases second : t.tag? right with
      | none => rw [Option.map_none, Checker.decide_none_right, Checker.decide_none_right]
      | some b => exact ren.decide_eq quiet rel (known_of_tag? sound.rooted first) (known_of_tag? sound.rooted second)
  · intro name
    rw [tag name]
    cases here : t.tag? name with
    | none => rfl
    | some a =>
      have text := ren.print_eq t.props.name (known_of_tag? sound.rooted here)
      simp only [Option.map_some, Table.print, iso.props, text]

end Isomorphic

/-- What reads back from the compiled form of a table. -/
theorem Sound.packed [Codec] (sound : t.Sound) : ∃ w, t.compile = .ok w ∧ t.encode = .ok (Codec.write w) ∧
    (Codec.Reads w → ∃ u, Table.decode (Codec.write w) = .ok u ∧ t.Alike u) := by
  obtain ⟨order, numbering, compiled⟩ := sound.compile
  have encoded : t.encode = .ok (Codec.write (t.compiledBy order)) := by rw [Table.encode, compiled]; rfl
  refine ⟨_, compiled, encoded, fun reads => ⟨t.relinked order, ?_, ?_⟩⟩
  · rw [Table.decode, reads]
    simp only [numbering.link sound]
    rfl
  · exact numbering.isomorphic.alike sound (CompiledTable.link_sound (numbering.link sound)).rooted

end Table

namespace Files.Tree

variable {t t' : Tree} {place target : List String} {names : List String} {data : Bytes} {here path : String}

/-- What is put at a place changes no other one, and is found unless the place is the root. -/
theorem entry?_put (e : Entry) (inner : target ≠ []) :
    Tree.entry? (t.put target e) place = if place = target then some e else t.entry? place := by
  have rest (entries : List (List String × Entry)) (other : place ≠ target) :
      (entries.filter (·.1 ≠ target)).lookup place = entries.lookup place := by
    induction entries with
    | nil => rfl
    | cons entry entries ih =>
      obtain ⟨key, value⟩ := entry
      by_cases here : key = target
      · simp only [here, ne_eq, not_true_eq_false, decide_false, Bool.false_eq_true, not_false_eq_true,
          List.filter_cons_of_neg, List.lookup_cons, beq_false_of_ne other] at ih ⊢
        exact ih
      · simp only [ne_eq, here, not_false_eq_true, decide_true, List.filter_cons_of_pos, List.lookup_cons] at ih ⊢
        rw [ih]
  by_cases same : place = target
  · subst same
    simp [put, entry?, inner]
  · simp only [put, entry?, List.lookup_cons, beq_false_of_ne same, rest t.entries same, same, if_false]

/-- The way to a place leads through directories, so a file that is put there does not block it. -/
theorem walk_put (way : t.walk place names = .ok target) (free : t.isDirectory target = false) :
    (t.put target (.file data)).walk place names = .ok target := by
  have inner : target ≠ [] := by
    rintro rfl
    simp [isDirectory, entry?] at free
  induction names generalizing place with
  | nil => exact way
  | cons name names ih =>
    unfold walk at way ⊢
    cases entry : t.entry? place with
    | none => rw [entry] at way; cases way
    | some e =>
      cases e with
      | file => rw [entry] at way; cases way
      | directory =>
        have elsewhere : place ≠ target := by
          rintro rfl
          simp [isDirectory, entry] at free
        rw [entry?_put _ inner, if_neg elsewhere, entry]
        rw [entry] at way
        simp only at way ⊢
        split_ifs at way ⊢
        · exact ih way
        · exact ih way
        · exact ih way

theorem read_write (written : t.write here path data = .ok t') : t'.read here path = .ok data := by
  unfold write at written
  split at written
  next => cases written
  next place found =>
    split_ifs at written with occupied inside
    cases written
    have free : t.isDirectory place = false := by simpa using occupied
    have inner : place ≠ [] := by
      rintro rfl
      simp [isDirectory, entry?] at free
    have again : (t.put place (.file data)).locate here path = .ok place := by
      unfold locate at found ⊢
      simp only at found ⊢
      split_ifs at found ⊢
      · exact walk_put found free
      · exact walk_put found free
    rw [read, again]
    simp only [entry?_put _ inner, if_true]

end Files.Tree

namespace Command

variable {here path : String} {tree tree' : Tree} {s : Setup} {t u : Table}

theorem silent_of_checkerWith {c : Checker} (h : checkerWith s Oracle.silent = .ok c) : c.oracle = Oracle.silent := by
  rw [← plain_of_checkerWith h Oracle.silent]
  rfl

variable [Codec]

theorem relateTypes_alike {c : Checker} {left right : String} {a b a' b' : TypeId} (alike : t.Alike u)
    (quiet : c.oracle = Oracle.silent) (first : t.tag? left = some a) (second : t.tag? right = some b)
    (first' : u.tag? left = some a') (second' : u.tag? right = some b') (colour : Bool) (rel : Relation) :
    relateTypes colour u c rel left right a' b' = relateTypes colour t c rel left right a b := by
  have told := alike.decide c rel left right quiet
  rw [first, second, first', second'] at told
  unfold relateTypes
  rw [told]

def Setup.reading (s : Setup) (path : String) : Setup := { s with tablePath := path }

theorem relate_alike (plain : s.cached = false) (alike : t.Alike u)
    (loaded : (loadTable (Tree.disk here) s tree).1 = .ok t)
    (loaded' : (loadTable (Tree.disk here) (s.reading path) tree').1 = .ok u) (command : String) (rel : Relation)
    (names : List String) :
    (relate (Tree.disk here) (s.reading path) command rel names tree').1 =
      (relate (Tree.disk here) s command rel names tree).1 := by
  match names with
  | [] | [_] | _ :: _ :: _ :: _ => rfl
  | [left, right] =>
    rw [relate_eq, relate_eq, loaded, loaded']
    simp only [checkerFor_plain plain, checkerFor_plain (s := s.reading path) plain]
    have defined := alike.defined left
    have defined' := alike.defined right
    unfold namedPair
    cases first : t.tag? left with
    | none =>
      rw [first, Option.isSome_none, Option.isSome_eq_false_iff, Option.isNone_iff_eq_none] at defined
      rw [defined]
    | some a =>
      rw [first, Option.isSome_some] at defined
      obtain ⟨a', first'⟩ := Option.isSome_iff_exists.1 defined
      rw [first']
      cases second : t.tag? right with
      | none =>
        rw [second, Option.isSome_none, Option.isSome_eq_false_iff, Option.isNone_iff_eq_none] at defined'
        rw [defined']
      | some b =>
        rw [second, Option.isSome_some] at defined'
        obtain ⟨b', second'⟩ := Option.isSome_iff_exists.1 defined'
        rw [second']
        have limits : checkerWith (s.reading path) Oracle.silent = checkerWith s Oracle.silent := rfl
        simp only [limits]
        cases checker : checkerWith s Oracle.silent with
        | error => rfl
        | ok c => exact relateTypes_alike alike (silent_of_checkerWith checker) first second first' second' s.colour rel

theorem tagLines_alike (alike : t.Alike u) (names : List String) : tagLines u names = tagLines t names := by
  induction names with
  | nil => rfl
  | cons name names ih =>
    have text := alike.print name
    unfold tagLines
    cases here : t.tag? name with
    | none =>
      rw [here, Option.map_none, Option.map_eq_none_iff] at text
      rw [text]
    | some a =>
      rw [here, Option.map_some] at text
      obtain ⟨a', here', same⟩ := Option.map_eq_some_iff.1 text
      simp only [here', same, ih]

/-- What is dumped below the name of the file. -/
theorem dump_alike {digest : String} (alike : t.Alike u) (known : t.digest = .ok digest)
    (loaded : (loadTable (Tree.disk here) s tree).1 = .ok t)
    (loaded' : (loadTable (Tree.disk here) (s.reading path) tree').1 = .ok u) (names : List String) :
    ∃ rest ending, (dump (Tree.disk here) s names tree).1 = ⟨s!"# {Path.base s.tablePath}" :: rest, ending⟩ ∧
      (dump (Tree.disk here) (s.reading path) names tree').1 = ⟨s!"# {Path.base path}" :: rest, ending⟩ := by
  have counted : u.size = t.size := by
    have names := congrArg List.length alike.names
    simpa [Table.names, Table.size] using names
  have dumped {s : Setup} {tree : Tree} {t : Table} (loaded : (loadTable (Tree.disk here) s tree).1 = .ok t)
      (known : t.digest = .ok digest) :
      (dump (Tree.disk here) s names tree).1 =
        ⟨[s!"# {Path.base s.tablePath}", s!"# digest {digest}", s!"# {t.props.size} properties, {t.size} tags"] ++
          (tagLines t (if names.isEmpty then t.names else names)).lines,
          (tagLines t (if names.isEmpty then t.names else names)).ending⟩ := by
    simp only [dump, bind, StateT.bind]
    rw [loadTable_eq, loaded]
    simp only [known]
    rfl
  refine ⟨_, _, dumped loaded known, ?_⟩
  rw [dumped loaded' (alike.digest.trans known), tagLines_alike alike, alike.names, alike.props, counted]
  rfl

theorem save_eq {data : Bytes} (encoded : t.encode = .ok data) :
    t.save (Tree.disk here) path tree = match tree.write here path data with
      | .ok rest => (.ok (), rest)
      | .error e => (.error (.file e), tree) := by
  have change : (Tree.disk here).write path data tree = match tree.write here path data with
      | .ok rest => (.ok (), rest)
      | .error e => (.error e, tree) := by
    change Tree.change (fun t => t.write here path data) tree = _
    simp only [Tree.change, bind, StateT.bind, get, getThe, MonadStateOf.get, StateT.get, pure]
    cases tree.write here path data <;> rfl
  simp only [Table.save, encoded, bind, StateT.bind, change]
  cases tree.write here path data <;> rfl

/-- A table that was packed is in its file. -/
theorem read_packed (loaded : (loadTable (Tree.disk here) s tree).1 = .ok t) {data : Bytes}
    (encoded : t.encode = .ok data) (done : (pack (Tree.disk here) s [path] tree).1.ending = .done) :
    (pack (Tree.disk here) s [path] tree).2.read here path = .ok data := by
  simp only [pack, bind, StateT.bind] at done ⊢
  rw [loadTable_eq, loaded] at done ⊢
  simp only [save_eq encoded, StateT.bind] at done ⊢
  cases written : tree.write here path data with
  | error e =>
    rw [written] at done
    cases done
  | ok rest =>
    rw [written] at done
    cases digest : t.digest with
    | error e =>
      rw [digest] at done
      cases done
    | ok digest => exact Tree.read_write written

theorem pack_done {data : Bytes} {rest : Tree} {digest : String}
    (loaded : (loadTable (Tree.disk here) s tree).1 = .ok t) (encoded : t.encode = .ok data)
    (written : tree.write here path data = .ok rest) (known : t.digest = .ok digest) :
    (pack (Tree.disk here) s [path] tree).1.ending = .done := by
  simp only [pack, bind, StateT.bind]
  rw [loadTable_eq, loaded]
  simp only [save_eq encoded, StateT.bind, written, known]
  rfl

theorem loadTable_packed {data : Bytes}
    (ending : (Path.extension path).toLower = ".cbor" ∨ (Path.extension path).toLower = ".sjt")
    (file : tree.read here path = .ok data) (decoded : Table.decode data = .ok u) :
    (loadTable (Tree.disk here) (s.reading path) tree).1 = .ok u := by
  have named : path ≠ "" := by
    rintro rfl
    simp [Tree.read, Tree.locate] at file
  have read : Table.ofFile path data = .ok u := by
    have other : ¬ ((Path.extension path).toLower = ".yaml" ∨ (Path.extension path).toLower = ".yml") := by
      rcases ending with ending | ending <;> rw [ending] <;> decide
    simp only [Table.ofFile, if_neg other, if_pos ending, decoded]
    rfl
  have path' : (s.reading path).tablePath = path := rfl
  unfold loadTable
  rw [path', if_neg named]
  change (((tree.read here path).mapError TableFileError.file).bind (Table.ofFile path)).mapError
    CommandError.table = .ok u
  rw [file]
  change (Table.ofFile path data).mapError CommandError.table = .ok u
  rw [read]
  rfl

end Command

/-- A packed table answers like its source. A table that was built in any way from well-formed types, or described by a
document, has a compiled form. With any codec that reads what it has written of the form, what reads back gives the same
answers to all checks without an oracle, an overflow included, and the same text for every name. Commands on a file that
was packed from another one print the same as on that one, up to the name of the file. -/
theorem packed_answers_alike [Codec] :
    (∀ t : Table, ((t.Built ∧ t.Typed) ∨ ∃ d : Document, d.table = .ok t) →
      ∃ w, t.compile = .ok w ∧ t.encode = .ok (Codec.write w) ∧
        (Codec.Reads w → ∃ u, Table.decode (Codec.write w) = .ok u ∧ t.Alike u)) ∧
    ∀ (here session path : String) (tree : Tree) (s : Command.Setup) (t : Table) (w : CompiledTable),
      s.cached = false → (Command.loadTable (Tree.disk here) s tree).1 = .ok t → t.compile = .ok w → Codec.Reads w →
      ((Path.extension path).toLower = ".cbor" ∨ (Path.extension path).toLower = ".sjt") →
      (Command.pack (Tree.disk here) s [path] tree).1.ending = .done →
      (∀ command names, command = "check" ∨ command = "eq" →
        (Command.dispatch (Tree.disk here) (s.reading path) session command names
            (Command.pack (Tree.disk here) s [path] tree).2).1 =
          (Command.dispatch (Tree.disk here) s session command names tree).1) ∧
      ∀ names, ∃ rest ending,
        (Command.dispatch (Tree.disk here) s session "dump" names tree).1 =
          .ok ⟨s!"# {Path.base s.tablePath}" :: rest, ending⟩ ∧
        (Command.dispatch (Tree.disk here) (s.reading path) session "dump" names
            (Command.pack (Tree.disk here) s [path] tree).2).1 =
          .ok ⟨s!"# {Path.base path}" :: rest, ending⟩ := by
  constructor
  · intro t source
    exact (Table.sound_of_source source).packed
  · intro here session path tree s t w plain loaded compiled codec ending done
    have sound := Command.loadTable_sound loaded
    obtain ⟨w', compiled', encoded, reads⟩ := sound.packed
    obtain rfl : w = w' := Except.ok.inj (compiled.symm.trans compiled')
    obtain ⟨u, decoded, alike⟩ := reads codec
    have loaded' := Command.loadTable_packed (s := s) ending (Command.read_packed loaded encoded done) decoded
    obtain ⟨digest, known⟩ := sound.compilable.digest
    constructor
    · intro command names asks
      rcases asks with rfl | rfl
      · exact congrArg Except.ok (Command.relate_alike plain alike loaded loaded' "check" .subtype names)
      · exact congrArg Except.ok (Command.relate_alike plain alike loaded loaded' "eq" .equal names)
    · intro names
      obtain ⟨rest, ending, first, second⟩ := Command.dump_alike alike known loaded loaded' names
      exact ⟨rest, ending, congrArg Except.ok first, congrArg Except.ok second⟩

/-- Lists and what reads back from their compiled form; a file with two kinds of lists and a copy packed from it. -/
theorem packed_answers_rings :
    (∃ w u, Table.lists.compile = .ok w ∧ Table.decode w.bytes = .ok u ∧ Table.lists.Alike u) ∧
    (Command.pack (Tree.disk "/") ringsSetup ["/copy.cbor"] ringsTree).1.ending = .done ∧
    (Command.dispatch (Tree.disk "/") (ringsSetup.reading "/copy.cbor") "" "eq" ["Long", "Short"]
        (Command.pack (Tree.disk "/") ringsSetup ["/copy.cbor"] ringsTree).2).1 =
      .ok ⟨["Long = Short: true"], .done⟩ := by
  obtain ⟨tables, commands⟩ := packed_answers_alike
  constructor
  · obtain ⟨w, compiled, _, reads⟩ := tables Table.lists (.inl ⟨Table.lists_built, Table.lists_typed⟩)
    obtain ⟨u, decoded, alike⟩ := reads (Table.lists_reads compiled)
    exact ⟨_, u, compiled, decoded, alike⟩
  · have form : Table.readRings.compile = .ok Table.ringsForm := by decide
    have sound : Table.readRings.Sound := Command.loadTable_sound loadTable_rings
    obtain ⟨w, compiled, encoded, _⟩ := sound.packed
    obtain rfl := Except.ok.inj (form.symm.trans compiled)
    obtain ⟨digest, known⟩ := sound.compilable.digest
    have done : (Command.pack (Tree.disk "/") ringsSetup ["/copy.cbor"] ringsTree).1.ending = .done :=
      Command.pack_done loadTable_rings encoded rfl known
    refine ⟨done, ?_⟩
    have ending : (Path.extension "/copy.cbor").toLower = ".cbor" := by decide +kernel
    rw [(commands "/" "" "/copy.cbor" ringsTree ringsSetup _ _ rfl loadTable_rings form Table.ringsForm_reads
        (.inl ending) done).1
      "eq" ["Long", "Short"] (.inr rfl)]
    exact dispatch_rings

/-- The text of a function tells its prototype, if it has one, but only before packing. -/
theorem packed_text_prototyped : Table.prototyped.Built ∧ Table.prototyped.Compilable ∧
    Table.prototyped.encode = .ok Table.prototypedForm.bytes ∧
    Table.decode Table.prototypedForm.bytes = .ok Table.readPrototyped ∧
    (Table.prototyped.tag? "F").map Table.prototyped.print = some "fn() -> int proto int" ∧
    (Table.readPrototyped.tag? "F").map Table.readPrototyped.print = some "fn() -> int" :=
  ⟨Table.prototyped_built, Table.prototyped_compilable, rfl, Table.decode_prototypedForm, by decide +kernel,
    by decide +kernel⟩

end Gradual
