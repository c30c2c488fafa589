import PMigrate.Xenstore.Serial

namespace Xenstore

open PackedStrings Transition List

structure Watch where
  conn : Conn
  node : Name
  token : List Char
  relativePath : Option Name
deriving DecidableEq

structure WatchEvent where
  watch : Watch
  data : List Char
deriving DecidableEq

def isChild (child parent : Name) : Bool :=
  parent = root || (decide (parent <+: child) && (child.drop parent.length).head?.all (· = '/'))

def checkEventNode (node : Name) : Bool := node.head? = some '@'

def Watch.relativeName (w : Watch) (name : Name) : Name :=
  match w.relativePath with
  | none => name
  | some dir =>
    match name.drop dir.length with
    | '/' :: rest => rest
    | rest => rest

def addEvent (db : Db) (w : Watch) (name : Name) : List WatchEvent :=
  let event : WatchEvent := ⟨w,w.relativeName name ++ nul :: w.token ++ [nul]⟩
  if checkEventNode name then [event]
  else
    match getNode db w.conn (some name) permRead with
    | .ok _ | .error .ENOENT | .error .EACCES => [event]
    | .error _ => []

structure ChangedNode where
  node : Name
  recurse : Bool
deriving DecidableEq

def eventName (w : Watch) (c : ChangedNode) : Option Name :=
  if isChild c.node w.node then some c.node
  else if c.recurse && isChild w.node c.node then some w.node
  else none

def fireWatches (db : Db) (watches : List Watch) (transaction : Bool) (c : ChangedNode) : List WatchEvent :=
  if transaction then [] else watches.flatMap fun w => (eventName w c).elim [] (addEvent db w)

def addChangeNode (changes : List ChangedNode) (c : ChangedNode) : List ChangedNode :=
  if changes.any (·.node = c.node) then changes else changes ++ [c]

-- what do_write, do_mkdir, do_rm and do_set_perms give to add_change_node and fire_watches
def changeOf (conn : Conn) : Request → Option ChangedNode
  | .write payload | .setPerms payload => some ⟨canonicalize conn (first nul payload),false⟩
  | .mkdir payload => (onearg payload).map fun name => ⟨canonicalize conn name,false⟩
  | .rm payload => (onearg payload).map fun name => ⟨canonicalize conn name,true⟩
  | _ => none

-- made is every change in order, changes what the transaction has recorded of them
structure Run where
  work : Work
  (made changes : List ChangedNode)
  events : List WatchEvent

section
variable (cfg : Config) (conn : Conn) (watches : List Watch)

def perform (transaction : Bool) (s : Run) (r : Request) : Run :=
  let out := process cfg conn r s.work
  match if out.changed then changeOf conn r else none with
  | none => {s with work := out.work}
  | some c => {
    work := out.work
    made := s.made ++ [c]
    changes := if transaction then addChangeNode s.changes c else s.changes
    events := s.events ++ fireWatches out.work.db watches transaction c}

def transactionEnd (t : Run) (arg : Name) (started generation : Nat) : List WatchEvent :=
  if arg = ['T'] then
    if started%2^32 ≠ generation%2^32 then []
    else t.changes.flatMap (fireWatches t.work.db watches false)
  else []

structure Both where
  (inside outside : Run)

-- the requests of a transaction, and those that succeed in it executed outside of one
def together (s : Both) (r : Request) : Option Both :=
  some ⟨perform cfg conn watches true s.inside r,
    match (process cfg conn r s.inside.work).reply with
    | .error _ => s.outside
    | _ => perform cfg conn watches false s.outside r⟩

def Unlimited (s : Both) (r : Request) : Prop :=
  Agree (process cfg conn r s.inside.work) (process cfg.unlimited conn r s.inside.work) ∧
    Agree (process cfg conn r s.outside.work) (process cfg.unlimited conn r s.outside.work)

end

def Both.start (db : Db) (nbentry : Nat → Option Nat) : Both :=
  ⟨⟨⟨db,nbentry,some fun _ => 0,false⟩,[],[],[]⟩,⟨⟨db,nbentry,none,false⟩,[],[],[]⟩⟩

def Heard (w : Watch) (c : ChangedNode) : Prop :=
  ∃ name, eventName w c = some name ∧ (checkEventNode name = true ∨ isValidNodename name = true)

def sentTo (events : List WatchEvent) : List Watch := events.map WatchEvent.watch

section
variable {db : Db} {w v : Watch} {name : Name} {c c' : ChangedNode} {watches : List Watch}

theorem mem_addEvent :
  v ∈ sentTo (addEvent db w name) ↔ v = w ∧ (checkEventNode name = true ∨ isValidNodename name = true) := by
  rw [addEvent]
  split
  · simp_all [sentTo]
  rename_i hn
  rw [getNode]
  cases hv : isValidNodename name with
  | false => simp [sentTo,hn]
  | true =>
    cases db.lookup name with
    | none =>
      simp only [errnoFromParents]
      split_ifs <;> simp [sentTo]
    | some node =>
      simp only [errnoFromParents_EACCES]
      split_ifs <;> simp [sentTo]

theorem mem_fireWatches : w ∈ sentTo (fireWatches db watches false c) ↔ w ∈ watches ∧ Heard w c := by
  have hf : ∀ v, w ∈ sentTo ((eventName v c).elim [] (addEvent db v)) ↔ w = v ∧ Heard v c := by
    intro v
    rw [Heard]
    cases eventName v c with
    | none => simp [sentTo]
    | some name => simp [mem_addEvent]
  rw [fireWatches,if_neg Bool.false_ne_true,sentTo,map_flatMap,mem_flatMap]
  constructor
  · rintro ⟨v,hv,hw⟩
    obtain ⟨rfl,hh⟩ := (hf v).mp hw
    exact ⟨hv,hh⟩
  · exact fun ⟨hw,hh⟩ => ⟨w,hw,(hf w).mpr ⟨rfl,hh⟩⟩

theorem Heard.recorded (h : Heard w c) (hn : c'.node = c.node) (hr : c.recurse = true → c'.recurse = true) :
  Heard w c' := by
  obtain ⟨name,he,hv⟩ := h
  refine ⟨name,?_,hv⟩
  rw [eventName] at he ⊢
  rw [hn]
  split_ifs at he ⊢ with ha hb hc
  all_goals simp_all

end

-- no node is removed that was changed before in another way
def RemovedFirst (made : List ChangedNode) : Prop :=
  made.Pairwise fun a b => a.node = b.node → b.recurse = true → a.recurse = true

def Kept (made changes : List ChangedNode) : Prop :=
  ∀ c ∈ made, ∃ c' ∈ changes, c'.node = c.node ∧ (c.recurse = true → c'.recurse = true)

theorem addChangeNode_kept {made changes : List ChangedNode} {c : ChangedNode} (ho : changes ⊆ made)
  (hk : RemovedFirst made → Kept made changes) : addChangeNode changes c ⊆ made ++ [c] ∧
    (RemovedFirst (made ++ [c]) → Kept (made ++ [c]) (addChangeNode changes c)) := by
  rw [addChangeNode]
  split
  · rename_i hy
    obtain ⟨y,hy,hn⟩ := any_eq_true.mp hy
    refine ⟨fun x hx => mem_append_left _ (ho hx),fun hp x hx => ?_⟩
    obtain ⟨hm,-,hl⟩ := pairwise_append.mp hp
    rcases mem_append.mp hx with hx | hx
    · exact hk hm x hx
    · rw [mem_singleton.mp hx]
      have hn := of_decide_eq_true hn
      exact ⟨y,hy,hn,hl y (ho hy) c mem_cons_self hn⟩
  · refine ⟨append_subset.mpr ⟨fun x hx => mem_append_left _ (ho hx),subset_append_right _ _⟩,fun hp x hx => ?_⟩
    rcases mem_append.mp hx with hx | hx
    · obtain ⟨y,hy,he⟩ := hk (pairwise_append.mp hp).1 x hx
      exact ⟨y,mem_append_left _ hy,he⟩
    · exact ⟨x,mem_append_right _ hx,rfl,id⟩

structure Mirrors (watches : List Watch) (s : Both) : Prop where
  db : s.inside.work.db = s.outside.work.db
  quiet : s.inside.events = []
  heard : ∀ w ∈ sentTo s.outside.events, w ∈ watches ∧ ∃ c ∈ s.inside.made, Heard w c
  origin : s.inside.changes ⊆ s.inside.made
  kept : RemovedFirst s.inside.made → Kept s.inside.made s.inside.changes

section
variable {cfg : Config} {conn : Conn} {r : Request}

theorem created_error {res : Option Errno × Work} {e : Errno} (h : (created res).reply = .error e) :
  (created res).changed = false := by
  rcases res with ⟨_ | x,w⟩
  · cases h
  · rfl

theorem process_error {w : Work} {e : Errno} (h : (process cfg conn r w).reply = .error e) :
  (process cfg conn r w).changed = false := by
  cases r with
  | directory payload | read payload | getPerms payload => rfl
  | write payload | mkdir payload | rm payload | setPerms payload =>
    revert h
    simp only [process,doWrite,doMkdir,doRm,rm,doSetPerms]
    repeat' split
    all_goals first | exact created_error | exact fun _ => rfl | exact fun h => by cases h

variable {watches : List Watch} {s t : Both}

theorem Mirrors.step (h : Mirrors watches s) (hu : Unlimited cfg conn s r)
  (ht : together cfg conn watches s r = some t) : Mirrors watches t := by
  cases ht
  have hp := @process_agree cfg conn _ _ h.db r
  have hd := hu.1.db.trans (hp.db.trans hu.2.db.symm)
  have hc := hu.1.changed.trans (hp.changed.trans hu.2.changed.symm)
  cases he : (process cfg conn r s.inside.work).reply with
  | error e =>
    have hn := process_error he
    have hs : (process cfg conn r s.inside.work).work.db = s.inside.work.db :=
      hu.1.db.trans (process_honest r (hu.1.changed ▸ hn))
    rw [perform,hn]
    exact ⟨hs.trans h.db,h.quiet,h.heard,h.origin,h.kept⟩
  | data payload | transaction id =>
    rw [perform,perform,← hc]
    dsimp only
    split
    · exact ⟨hd,h.quiet,h.heard,h.origin,h.kept⟩
    · rename_i c hx
      obtain ⟨ho,hk⟩ := addChangeNode_kept (c := c) h.origin h.kept
      refine ⟨hd,by rw [h.quiet]; rfl,fun w hw => ?_,ho,hk⟩
      simp only [sentTo,map_append] at hw
      rcases mem_append.mp hw with hw | hw
      · obtain ⟨hm,x,hx,hh⟩ := h.heard w hw
        exact ⟨hm,x,mem_append_left _ hx,hh⟩
      · obtain ⟨hm,hh⟩ := mem_fireWatches.mp hw
        exact ⟨hm,c,mem_append_right _ mem_cons_self,hh⟩

end

def toolstack : Conn := ⟨0,true,none,false⟩

def toolWatch : Watch := ⟨toolstack,"/tool/xenstored".toList,"token".toList,none⟩

def toolRun (rs : List Request) : Option Both :=
  runIf (together defaultConfig.unlimited toolstack [toolWatch]) (fun _ _ => true)
  (.start setupStructure fun _ => none) rs

def removed : Both := (toolRun [.rm (text "/tool")]).get (by decide +kernel)

def rewritten : Both := (toolRun [.write (text "/tool" ++ "x".toList),.rm (text "/tool")]).get (by decide +kernel)

theorem unlimited_tool (s : Both) (r : Request) : Unlimited defaultConfig.unlimited toolstack s r :=
  ⟨⟨rfl,rfl,rfl⟩,⟨rfl,rfl,rfl⟩⟩

end Xenstore
