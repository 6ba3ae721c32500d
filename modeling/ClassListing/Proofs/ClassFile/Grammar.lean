import ClassListing.Proofs.Attribute.Isolation
import ClassListing.Proofs.ClassFile.Extension
import ClassListing.Proofs.Constant.Layout

/-!
# The parts of a class file

A class file is the writing of its parts one after the other: the header, the constants, the
declaration, the members and the attributes, each list with its count in front. It is accepted
exactly if every part stands for something on its own, given the constants, and the bytes leave no
choice of parts.
-/

namespace ClassListing

open Decoder

/-! ## Writings that tell where they end -/

/-- No writing is the beginning of another, so what follows a writing can be told from it. -/
def Bytes.Delimits (write : α → Bytes) : Prop :=
  ∀ (item other : α) (rest more : Bytes), write item ++ rest = write other ++ more →
    item = other ∧ rest = more

namespace Bytes.Delimits

theorem u2 : Delimits fun index : UInt16 => Bytes.ofNat 2 index.toNat := by
  intro index other rest more h
  obtain ⟨hsame, hrest⟩ := List.append_inj h (by simp)
  have hnumber := Bytes.ofNat_inj index.toNat_lt other.toNat_lt hsame
  exact ⟨UInt16.toNat_inj.mp hnumber, hrest⟩

/-- Lists of one length are told apart item by item. -/
theorem flatMap {write : α → Bytes} (h : Delimits write) {items others : List α}
    {rest more : Bytes} (hl : items.length = others.length)
    (he : items.flatMap write ++ rest = others.flatMap write ++ more) :
    items = others ∧ rest = more := by
  induction items generalizing others with
  | nil =>
      obtain rfl := List.length_eq_zero_iff.mp hl.symm
      exact ⟨rfl, he⟩
  | cons item items ih =>
      cases others with
      | nil => cases hl
      | cons other others =>
          simp only [List.flatMap_cons, List.append_assoc] at he
          obtain ⟨rfl, htail⟩ := h item other _ _ he
          obtain ⟨rfl, hrest⟩ := ih (Nat.succ.inj hl) htail
          exact ⟨rfl, hrest⟩

/-- The count says how many items there are. -/
theorem counted {write : α → Bytes} (h : Delimits write) {items others : List α}
    {rest more : Bytes} (hi : items.length < 2 ^ 16) (ho : others.length < 2 ^ 16)
    (he : Bytes.counted write items ++ rest = Bytes.counted write others ++ more) :
    items = others ∧ rest = more := by
  simp only [Bytes.counted, List.append_assoc] at he
  obtain ⟨hcount, htail⟩ := List.append_inj he (by simp)
  have hlength := Bytes.ofNat_inj (show items.length < 256 ^ 2 from hi)
    (show others.length < 256 ^ 2 from ho) hcount
  exact h.flatMap hlength htail

end Bytes.Delimits

/-- On a writing alone, a decoder gives what the item that was written stands for. -/
theorem Decoder.Reads.alone_iff {decoder : Decoder α} {write : ρ → Bytes} {means : ρ → α → Prop}
    (h : Reads decoder (.coded write means)) (hd : Bytes.Delimits write) {item : ρ} {value : α} :
    decoder (.start (write item)) = .ok value ⟨(write item).length, []⟩ ↔ means item value := by
  rw [Cursor.start, h]
  constructor
  · intro h
    rcases h with ⟨_, ⟨other, rfl, hother⟩, hbytes, -⟩
    rw [← List.append_nil (write item)] at hbytes
    obtain ⟨rfl, -⟩ := hd item other _ _ hbytes
    exact hother
  · intro hitem
    exact ⟨write item, ⟨item, rfl, hitem⟩, (List.append_nil _).symm, (Nat.zero_add _).symm⟩

namespace Attribute

theorem Raw.encode_delimits : Bytes.Delimits Raw.encode := by
  intro raw other rest more h
  obtain ⟨name, body, sized⟩ := raw
  obtain ⟨otherName, otherBody, otherSized⟩ := other
  simp only [Raw.encode, List.append_assoc] at h
  obtain ⟨rfl, hlength⟩ := Bytes.Delimits.u2 name otherName _ _ h
  obtain ⟨hcount, hbody⟩ := List.append_inj hlength (by simp)
  have hsame := Bytes.ofNat_inj (show body.length < 256 ^ 4 from sized)
    (show otherBody.length < 256 ^ 4 from otherSized) hcount
  obtain ⟨rfl, hrest⟩ := List.append_inj hbody hsame
  exact ⟨rfl, hrest⟩

/-- An attribute is read from the writings that stand for it. -/
theorem decodeOne_reads (pool : Pool) (budget : Nat) :
    Reads (decodeOne pool (decodeWithin pool budget))
      (.coded Raw.encode fun raw value => raw.meaning pool budget = .ok value) := by
  refine (Reads.bind .u2 fun index => .bind .u4 fun length => .bind (.take length.toNat) fun body =>
    .bind (.lookup (pool.utf8 index)) fun name => .lookup (ofBody pool _ name body)).congr
    fun _ value used => ?_
  constructor
  · intro h
    rcases h with ⟨index, _, _, rfl, rfl, length, _, _, rfl, rfl, _, body, _, rfl, ⟨hbody, rfl⟩,
      name, _, _, rfl, ⟨hname, rfl⟩, hvalue, rfl⟩
    have hsized : body.length < 2 ^ 32 := hbody ▸ length.toNat_lt
    have hmeaning : Raw.meaning pool budget ⟨index, body, hsized⟩ = .ok value :=
      bind_eq_ok_iff.mpr ⟨name, hname, hvalue⟩
    refine ⟨_, ?_, hmeaning⟩
    simp [Raw.encode, hbody]
  · intro h
    rcases h with ⟨⟨index, body, sized⟩, rfl, hmeaning⟩
    obtain ⟨name, hname, hvalue⟩ := bind_eq_ok_iff.mp hmeaning
    have hlength : (UInt32.ofNat body.length).toNat = body.length :=
      UInt32.toNat_ofNat_of_lt' sized
    refine ⟨index, _, _, List.append_assoc .., rfl, .ofNat body.length, _, body, ?_, rfl, body,
      body, [], by simp, ⟨hlength.symm, rfl⟩, name, [], [], rfl, ⟨hname, rfl⟩, hvalue, rfl⟩
    rw [hlength]

theorem decodeList_reads (pool : Pool) :
    Reads (decodeList pool) fun _ values used => ∃ list : List Raw, list.length < 2 ^ 16 ∧
      used = Bytes.counted Raw.encode list ∧
      List.Forall₂ (fun raw value => raw.meaning pool maxAttributeDepth = .ok value) list values :=
  .countedU2 (decodeOne_reads pool maxAttributeDepth)

end Attribute

namespace Member

structure Raw where
  flags : UInt16
  name : UInt16
  descriptor : UInt16
  attributes : List Attribute.Raw
  short : attributes.length < 2 ^ 16

namespace Raw

def encode (raw : Raw) : Bytes :=
  Bytes.ofNat 2 raw.flags.toNat ++ Bytes.ofNat 2 raw.name.toNat ++
    Bytes.ofNat 2 raw.descriptor.toNat ++ Bytes.counted Attribute.Raw.encode raw.attributes

/-- The member has the flags as they are, the texts at the indices, and the attributes in order. -/
structure Denotes (pool : Pool) (raw : Raw) (member : Member) : Prop where
  flags : member.flags = raw.flags
  name : pool.utf8 raw.name = .ok member.name
  descriptor : pool.utf8 raw.descriptor = .ok member.descriptor
  attributes : List.Forall₂ (fun raw value => raw.meaning pool maxAttributeDepth = .ok value)
    raw.attributes member.attributes

theorem encode_delimits : Bytes.Delimits encode := by
  intro raw other rest more h
  obtain ⟨flags, name, descriptor, attributes, short⟩ := raw
  obtain ⟨otherFlags, otherName, otherDescriptor, otherAttributes, otherShort⟩ := other
  simp only [encode, List.append_assoc] at h
  obtain ⟨rfl, hnames⟩ := Bytes.Delimits.u2 flags otherFlags _ _ h
  obtain ⟨rfl, htypes⟩ := Bytes.Delimits.u2 name otherName _ _ hnames
  obtain ⟨rfl, hlists⟩ := Bytes.Delimits.u2 descriptor otherDescriptor _ _ htypes
  obtain ⟨rfl, hrest⟩ := Attribute.Raw.encode_delimits.counted short otherShort hlists
  exact ⟨rfl, hrest⟩

end Raw

theorem decode_reads (pool : Pool) :
    Reads (decode pool) (.coded Raw.encode (Raw.Denotes pool)) := by
  refine (Reads.bind .u2 fun _ => .bind (.reference _) fun _ => .bind (.reference _) fun _ =>
    .map (Attribute.decodeList_reads pool) _).congr fun _ member used => ?_
  constructor
  · intro h
    rcases h with ⟨flags, _, _, rfl, rfl, name, _, _, rfl, ⟨nameIndex, rfl, hname⟩, descriptor, _,
      _, rfl, ⟨typeIndex, rfl, htype⟩, attributes, rfl, list, hlist, rfl, hattributes⟩
    refine ⟨⟨flags, nameIndex, typeIndex, list, hlist⟩, ?_, rfl, hname, htype, hattributes⟩
    simp [Raw.encode]
  · intro h
    rcases h with ⟨raw, rfl, hflags, hname, htype, hattributes⟩
    refine ⟨raw.flags, _, _, ?_, rfl, member.name, _, _, rfl, ⟨raw.name, rfl, hname⟩,
      member.descriptor, _, _, rfl, ⟨raw.descriptor, rfl, htype⟩, member.attributes, ?_,
      raw.attributes, raw.short, rfl, hattributes⟩
    · simp [Raw.encode]
    · rw [← hflags]

end Member

namespace ClassFile

structure Raw where
  minor : UInt16
  major : UInt16
  entries : List Pool.Entry
  flags : UInt16
  name : UInt16
  superName : UInt16
  interfaces : List UInt16
  fields : List Member.Raw
  methods : List Member.Raw
  attributes : List Attribute.Raw
  fewSlots : Pool.slotCount entries ≤ 65534
  fewInterfaces : interfaces.length < 2 ^ 16
  fewFields : fields.length < 2 ^ 16
  fewMethods : methods.length < 2 ^ 16
  fewAttributes : attributes.length < 2 ^ 16

def IsFirstTable (attributes : List Attribute) (rows : List BootstrapMethod) : Prop :=
  (∃ before after, attributes = before ++ .bootstrapMethods rows :: after ∧
    ∀ item ∈ before, ∀ other, item ≠ .bootstrapMethods other) ∨
  rows = [] ∧ ∀ item ∈ attributes, ∀ other, item ≠ .bootstrapMethods other

namespace Raw

def encodeIndex (index : UInt16) : Bytes := Bytes.ofNat 2 index.toNat

/-- What follows the magic number. -/
def encodeBody (raw : Raw) : Bytes :=
  encodeIndex raw.minor ++ encodeIndex raw.major ++ Pool.encodeAll raw.entries ++
    encodeIndex raw.flags ++ encodeIndex raw.name ++ encodeIndex raw.superName ++
    Bytes.counted encodeIndex raw.interfaces ++ Bytes.counted Member.Raw.encode raw.fields ++
    Bytes.counted Member.Raw.encode raw.methods ++
    Bytes.counted Attribute.Raw.encode raw.attributes

def encode (raw : Raw) : Bytes := Bytes.ofNat 4 magic.toNat ++ raw.encodeBody

def pool (raw : Raw) : Pool := ⟨(Pool.layOut raw.entries).toArray, []⟩

/-- Every part of the class is what the same part of `raw` stands for, given the constants. -/
structure Denotes (raw : Raw) (file : ClassFile) : Prop where
  minor : file.minor = raw.minor
  major : file.major = raw.major
  constants : file.pool.slots = raw.pool.slots
  bootstrap : IsFirstTable file.attributes file.pool.bootstrap
  flags : file.flags = raw.flags
  name : raw.pool.className raw.name = .ok file.name
  superName : Pool.optional raw.pool.className raw.superName = .ok file.superName
  interfaces : List.Forall₂ (fun index name => raw.pool.className index = .ok name)
    raw.interfaces file.interfaces
  fields : List.Forall₂ (Member.Raw.Denotes raw.pool) raw.fields file.fields
  methods : List.Forall₂ (Member.Raw.Denotes raw.pool) raw.methods file.methods
  attributes : List.Forall₂
    (fun item value => item.meaning raw.pool maxAttributeDepth = .ok value)
    raw.attributes file.attributes

/-- The bootstrap table, which is only known at the end, has no part in what a lookup finds. -/
theorem Denotes.get_eq {raw : Raw} {file : ClassFile} (h : raw.Denotes file) :
    raw.pool.get = file.pool.get := by
  funext index
  simp only [Pool.get, Pool.size, h.constants]

end Raw

theorem isFirstTable_iff {attributes : List Attribute} {rows : List BootstrapMethod} :
    IsFirstTable attributes rows ↔ rows = bootstrapTable attributes := by
  induction attributes with
  | nil => simp [IsFirstTable, bootstrapTable]
  | cons item attributes ih =>
      cases item with
      | bootstrapMethods found =>
          simp only [bootstrapTable, List.findSome?_cons, Attribute.bootstrapRows?,
            Option.getD_some]
          constructor
          · intro h
            rcases h with ⟨before, after, hsplit, hbefore⟩ | ⟨-, hnone⟩
            · cases before with
              | nil =>
                  cases hsplit
                  rfl
              | cons first before =>
                  obtain ⟨rfl, -⟩ := List.cons.inj hsplit
                  exact absurd rfl (hbefore _ (List.mem_cons_self ..) found)
            · exact absurd rfl (hnone _ (List.mem_cons_self ..) found)
          · intro h
            exact .inl ⟨[], attributes, by rw [h]; rfl, nofun⟩
      | _ =>
          rw [bootstrapTable, List.findSome?_cons]
          refine Iff.trans ?_ ih
          constructor
          · intro h
            rcases h with ⟨before, after, hsplit, hbefore⟩ | ⟨hrows, hnone⟩
            · cases before with
              | nil => cases hsplit
              | cons first before =>
                  obtain ⟨-, rfl⟩ := List.cons.inj hsplit
                  exact .inl ⟨before, after, rfl, (List.forall_mem_cons.mp hbefore).2⟩
            · exact .inr ⟨hrows, (List.forall_mem_cons.mp hnone).2⟩
          · intro h
            rcases h with ⟨before, after, rfl, hbefore⟩ | ⟨hrows, hnone⟩
            · exact .inl ⟨_ :: before, after, rfl, List.forall_mem_cons.mpr ⟨nofun, hbefore⟩⟩
            · exact .inr ⟨hrows, List.forall_mem_cons.mpr ⟨nofun, hnone⟩⟩

theorem decodeBody_reads : Reads decodeBody (.coded Raw.encodeBody Raw.Denotes) := by
  refine (Reads.bind .u2 fun _ => .bind .u2 fun _ => .bind Pool.decode_reads fun pool =>
    .bind .u2 fun _ => .bind (.reference _) fun _ => .bind (.reference _) fun _ =>
    .bind (.countedU2 (.reference _)) fun _ => .bind (.countedU2 (Member.decode_reads pool))
    fun _ => .bind (.countedU2 (Member.decode_reads pool)) fun _ =>
    .map (Attribute.decodeList_reads pool) _).congr fun _ file used => ?_
  constructor
  · intro h
    -- Where the bytes are split for a part is used only after all parts are there: each of these
    -- equations would rewrite the rest.
    obtain ⟨minor, _, _, atMinor, hminor, major, _, _, atMajor, hmajor, pool, _, _, atPool, hpool,
      flags, _, _, atFlags, hflags, name, _, _, atName, hname, superName, _, _, atSuper, hsuper,
      interfaces, _, _, atInterfaces, hinterfaces, fields, _, _, atFields, hfields,
      methods, _, _, atMethods, hmethods, attributes, hfile, hattributes⟩ := h
    obtain ⟨entries, hentries, rfl, rfl⟩ := hpool
    obtain ⟨nameIndex, rfl, hname⟩ := hname
    obtain ⟨superIndex, rfl, hsuper⟩ := hsuper
    obtain ⟨indices, hindices, rfl, hinterfaces⟩ := hinterfaces
    obtain ⟨rawFields, hrawFields, rfl, hfields⟩ := hfields
    obtain ⟨rawMethods, hrawMethods, rfl, hmethods⟩ := hmethods
    obtain ⟨rawAttributes, hrawAttributes, rfl, hattributes⟩ := hattributes
    subst atMinor hminor atMajor hmajor atPool atFlags hflags atName atSuper atInterfaces atFields
      atMethods hfile
    refine ⟨⟨minor, major, entries, flags, nameIndex, superIndex, indices, rawFields, rawMethods,
      rawAttributes, hentries, hindices, hrawFields, hrawMethods, hrawAttributes⟩, ?_, ?_⟩
    · simp only [Raw.encodeBody, List.append_assoc]
      rfl
    · exact ⟨rfl, rfl, rfl, isFirstTable_iff.mpr rfl, rfl, hname, hsuper, hinterfaces, hfields,
        hmethods, hattributes⟩
  · intro h
    rcases h with ⟨raw, rfl, h⟩
    have hpool : file.pool = ⟨raw.pool.slots, bootstrapTable file.attributes⟩ := by
      rw [← isFirstTable_iff.mp h.bootstrap, ← h.constants]
    have hfile : file = ⟨raw.minor, raw.major, ⟨raw.pool.slots, bootstrapTable file.attributes⟩,
        raw.flags, file.name, file.superName, file.interfaces, file.fields, file.methods,
        file.attributes⟩ := by
      rw [← hpool, ← h.minor, ← h.major, ← h.flags]
    simp only [Raw.encodeBody, List.append_assoc]
    exact ⟨raw.minor, _, _, rfl, rfl, raw.major, _, _, rfl, rfl,
      raw.pool, _, _, rfl, ⟨raw.entries, raw.fewSlots, rfl, rfl⟩, raw.flags, _, _, rfl, rfl,
      file.name, _, _, rfl, ⟨raw.name, rfl, h.name⟩,
      file.superName, _, _, rfl, ⟨raw.superName, rfl, h.superName⟩,
      file.interfaces, _, _, rfl, ⟨raw.interfaces, raw.fewInterfaces, rfl, h.interfaces⟩,
      file.fields, _, _, rfl, ⟨raw.fields, raw.fewFields, rfl, h.fields⟩,
      file.methods, _, _, rfl, ⟨raw.methods, raw.fewMethods, rfl, h.methods⟩,
      file.attributes, hfile, raw.attributes, raw.fewAttributes, rfl, h.attributes⟩

theorem decodeFirst_reads : Reads decodeFirst (.coded Raw.encode Raw.Denotes) := by
  refine (Reads.bind .u4 fun found => .refuse _ decodeBody_reads).congr fun _ file used => ?_
  constructor
  · intro h
    rcases h with ⟨found, _, _, rfl, rfl, hmagic, raw, rfl, h⟩
    obtain rfl : found = magic := Decidable.of_not_not hmagic
    exact ⟨raw, rfl, h⟩
  · intro h
    rcases h with ⟨raw, rfl, h⟩
    exact ⟨magic, _, _, rfl, rfl, not_not_intro rfl, raw, rfl, h⟩

/-- No bytes are left over where the decoder of the first class file stops. -/
theorem parse_eq_ok_iff {bytes : Bytes} {file : ClassFile} :
    parse bytes = .ok file ↔ ∃ raw : Raw, raw.encode = bytes ∧ raw.Denotes file := by
  constructor
  · intro h
    have hl := length_of_parse_ok h
    obtain ⟨found, stopped, hd, hp⟩ | ⟨error, stopped, hd, -, hp⟩ := parse_cases hl
    · rw [hp] at h
      split at h <;> cases h
      rename_i hr
      obtain ⟨_, ⟨raw, rfl, hraw⟩, hbytes, -⟩ := (decodeFirst_reads _ _ _ _).mp hd
      rw [hr, List.append_nil] at hbytes
      exact ⟨raw, hbytes.symm, hraw⟩
    · rw [hp] at h
      cases h
  · intro h
    rcases h with ⟨raw, rfl, hraw⟩
    have hl : 4 ≤ raw.encode.length := by
      simp only [Raw.encode, List.length_append, Bytes.length_ofNat]
      omega
    have hd : decodeFirst ⟨0, raw.encode ++ []⟩ = .ok file ⟨0 + raw.encode.length, []⟩ :=
      decodeFirst_reads.complete ⟨raw, rfl, hraw⟩ []
    rw [List.append_nil] at hd
    exact parse_of_ok hl hd

theorem Raw.encode_injective {raw other : Raw} (h : raw.encode = other.encode) : raw = other := by
  obtain ⟨minor, major, entries, flags, name, superName, interfaces, fields, methods, attributes,
    fewSlots, fewInterfaces, fewFields, fewMethods, fewAttributes⟩ := raw
  obtain ⟨otherMinor, otherMajor, otherEntries, otherFlags, otherName, otherSuper, otherInterfaces,
    otherFields, otherMethods, otherAttributes, otherSlots, otherIndices, otherFewFields,
    otherFewMethods, otherFewAttributes⟩ := other
  have hbody := List.append_cancel_left h
  simp only [encodeBody, List.append_assoc] at hbody
  obtain ⟨rfl, hmajor⟩ := Bytes.Delimits.u2 minor otherMinor _ _ hbody
  obtain ⟨rfl, hentries⟩ := Bytes.Delimits.u2 major otherMajor _ _ hmajor
  obtain rfl := Pool.encodeAll_append_inj fewSlots otherSlots hentries
  have hflags := List.append_cancel_left hentries
  obtain ⟨rfl, hname⟩ := Bytes.Delimits.u2 flags otherFlags _ _ hflags
  obtain ⟨rfl, hsuper⟩ := Bytes.Delimits.u2 name otherName _ _ hname
  obtain ⟨rfl, hinterfaces⟩ := Bytes.Delimits.u2 superName otherSuper _ _ hsuper
  obtain ⟨rfl, hfields⟩ := Bytes.Delimits.u2.counted fewInterfaces otherIndices hinterfaces
  obtain ⟨rfl, hmethods⟩ := Member.Raw.encode_delimits.counted fewFields otherFewFields hfields
  obtain ⟨rfl, hattributes⟩ :=
    Member.Raw.encode_delimits.counted fewMethods otherFewMethods hmethods
  rw [← List.append_nil (Bytes.counted _ attributes),
    ← List.append_nil (Bytes.counted _ otherAttributes)] at hattributes
  obtain ⟨rfl, -⟩ :=
    Attribute.Raw.encode_delimits.counted fewAttributes otherFewAttributes hattributes
  rfl

/--
An accepted byte string is, in exactly one way, the writing of parts that each stand for a part of
the class, one for one and in order; and the writing of any parts that do so is accepted. What the
constants, a member or an attribute stand for is what their decoder gives on their own bytes.
-/
theorem parse_accounts_for_bytes (bytes : Bytes) (file : ClassFile) :
    (parse bytes = .ok file ↔ ∃ raw : Raw, raw.encode = bytes ∧ raw.Denotes file) ∧
    (∀ raw other : Raw, raw.encode = bytes → other.encode = bytes → raw = other) ∧
    (∀ raw : Raw, Pool.decode (.start (Pool.encodeAll raw.entries)) =
      .ok raw.pool ⟨(Pool.encodeAll raw.entries).length, []⟩) ∧
    (∀ (pool : Pool) (raw : Member.Raw) (member : Member),
      Member.decode pool (.start raw.encode) = .ok member ⟨raw.encode.length, []⟩ ↔
        raw.Denotes pool member) ∧
    (∀ (pool : Pool) (raw : Attribute.Raw) (value : Attribute),
      Attribute.decodeOne pool (Attribute.decodeWithin pool maxAttributeDepth)
          (.start raw.encode) = .ok value ⟨raw.encode.length, []⟩ ↔
        raw.meaning pool maxAttributeDepth = .ok value) := by
  refine ⟨parse_eq_ok_iff, ?_, ?_, ?_, ?_⟩
  · intro raw other hraw hother
    exact Raw.encode_injective (hraw.trans hother.symm)
  · intro raw
    have hread : Pool.decode ⟨0, Pool.encodeAll raw.entries ++ []⟩ =
        .ok raw.pool ⟨0 + (Pool.encodeAll raw.entries).length, []⟩ :=
      Pool.decode_reads.complete ⟨raw.entries, raw.fewSlots, rfl, rfl⟩ []
    rwa [List.append_nil, Nat.zero_add] at hread
  · intro pool raw member
    exact (Member.decode_reads pool).alone_iff Member.Raw.encode_delimits
  · intro pool raw value
    exact (Attribute.decodeOne_reads pool _).alone_iff Attribute.Raw.encode_delimits

def ownInterfaceFile : ClassFile :=
  ⟨0, 65, ⟨#[none, some (.utf8 "A"), some (.classInfo 1), some (.utf8 "I"),
      some (.utf8 "BootstrapMethods")], [⟨9, []⟩]⟩,
    0x21, "A", none, ["A"], [⟨0x1000, "A", "I", []⟩], [], [.bootstrapMethods [⟨9, []⟩]]⟩

def ownInterfaceBytes : Bytes :=
  [0xCA, 0xFE, 0xBA, 0xBE, 0, 0, 0, 65] ++
  -- The constants.
  [0, 5, 1, 0, 1, 65, 7, 0, 1, 1, 0, 1, 73] ++
  [1, 0, 16, 66, 111, 111, 116, 115, 116, 114, 97, 112, 77, 101, 116, 104, 111, 100, 115] ++
  -- The declaration, the field, no method, and the table.
  [0, 0x21, 0, 2, 0, 0, 0, 1, 0, 2] ++
  [0, 1, 0x10, 0, 0, 1, 0, 3, 0, 0, 0, 0] ++
  [0, 1, 0, 4, 0, 0, 0, 6, 0, 1, 0, 9, 0, 0]

theorem parse_accounts_for_bytes_sample :
    parse ownInterfaceBytes = .ok ownInterfaceFile ∧ ∃ raw : Raw, raw.encode = ownInterfaceBytes ∧
      raw.Denotes ownInterfaceFile ∧
        ∀ other : Raw, other.encode = ownInterfaceBytes → other = raw := by
  obtain ⟨haccept, hunique, -⟩ := parse_accounts_for_bytes ownInterfaceBytes ownInterfaceFile
  have hparts : ∃ raw : Raw, raw.encode = ownInterfaceBytes ∧ raw.Denotes ownInterfaceFile := by
    refine ⟨{
      minor := 0
      major := 65
      entries := [.utf8 [65] (by decide), .plain (.classInfo 1) (by decide), .utf8 [73] (by decide),
        .utf8 [66, 111, 111, 116, 115, 116, 114, 97, 112, 77, 101, 116, 104, 111, 100, 115]
          (by decide)]
      flags := 0x21
      name := 2
      superName := 0
      interfaces := [2]
      fields := [⟨0x1000, 1, 3, [], by decide⟩]
      methods := []
      attributes := [⟨4, [0, 1, 0, 9, 0, 0], by decide⟩]
      fewSlots := by decide
      fewInterfaces := by decide
      fewFields := by decide
      fewMethods := by decide
      fewAttributes := by decide }, rfl, rfl, rfl, rfl, .inl ⟨[], [], rfl, nofun⟩, rfl, rfl, rfl,
      .cons rfl .nil, .cons ⟨rfl, rfl, rfl, .nil⟩ .nil, .nil, .cons rfl .nil⟩
  obtain ⟨raw, hbytes, hdenotes⟩ := hparts
  refine ⟨haccept.mpr ⟨raw, hbytes, hdenotes⟩, raw, hbytes, hdenotes, ?_⟩
  intro other hother
  exact hunique other raw hother hbytes

end ClassFile

end ClassListing
