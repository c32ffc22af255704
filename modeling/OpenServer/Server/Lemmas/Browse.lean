import OpenServer.Composer.Lemmas.Reassembly
import OpenServer.Dispatcher.Lemmas.Listing
import OpenServer.Dispatcher.Lemmas.ReadBack
import OpenServer.Http.LinkReader

/-!
This module follows a link of a directory listing: the client reads it off the page, the request goes
through the composer in the pieces in which it is received, through the parser and a dispatcher, and
the client reads the file.
-/

namespace HtmlMessageComposer

-- A session that no dispatcher has worked on.
structure Unserved (msg : ClientSession) : Prop where
  fresh : msg.Fresh
  isDirty : msg.request.isDirty

theorem Unserved.storeData {c : HtmlMessageComposer}
    (h : ∀ msg, c.messages socket = some msg → Unserved msg)
    : Unserved (c.storeData socket fdsIndex data dataSize) := by
  unfold HtmlMessageComposer.storeData
  split
  . constructor
    . constructor <;> rfl
    . rfl
  . next stored hstored =>
    obtain ⟨hfresh, hdirty⟩ := h stored hstored
    exact ⟨⟨hfresh.1, hfresh.2, hfresh.3, hfresh.4, hfresh.5⟩, hdirty⟩

theorem deliver_unserved {c : HtmlMessageComposer} (arrivals : List Arrival)
    (h : ∀ msg, c.messages socket = some msg → Unserved msg)
    : ∀ msg ∈ (c.deliver socket arrivals).2, Unserved msg := by
  induction arrivals generalizing c with
  | nil => simp [deliver]
  | cons a arrivals ih =>
    obtain ⟨msg, hmsg, hcases⟩ := arrive_cases c socket a
    have hunserved : Unserved msg := by
      rw [hmsg]
      apply Unserved.storeData h
    intro msg' hmsg'
    rcases List.mem_append.mp hmsg' with hfirst | hrest
    . rcases hcases with ⟨-, hhanded, -⟩ | ⟨-, hnone, -⟩
      . obtain rfl : msg' = msg := by simpa [hhanded] using hfirst
        exact hunserved
      . simp [hnone] at hfirst
    . refine ih ?_ msg' hrest
      intro stored hstored
      rcases hcases with ⟨-, -, hnone⟩ | ⟨-, -, hsome⟩
      . simp [hnone] at hstored
      . obtain rfl : msg = stored := by simpa [hsome] using hstored
        exact hunserved

-- Every buffer but the first is full, so that nothing but the request is put together.
theorem reassembled_of_full {c : HtmlMessageComposer} (hfresh : c.messages socket = none)
    (hcut : (arrivals.map (·.received)).flatten = r) (hr : TerminatedOnce r)
    (hfull : ∀ a ∈ arrivals.tail, a.dataSize = recvBufferSize)
    : Reassembled c socket arrivals r := by
  rcases List.eq_nil_or_concat arrivals with rfl | ⟨front, z, rfl⟩
  . have := hr.isComplete
    simp only [List.map_nil, List.flatten_nil] at hcut
    simp [← hcut, isComplete] at this
  rw [List.concat_eq_append] at hcut hfull ⊢
  rw [reassembled_concat_iff hr.isComplete]
  cases front with
  | nil =>
    rw [deliver, storeData_of_none hfresh]
    simpa [RecvBuffer.received] using hcut
  | cons a front =>
    simp only [List.cons_append, List.map_cons, List.map_append, List.map_nil, List.flatten_cons,
      List.flatten_append, List.flatten_nil, List.append_nil] at hcut
    apply last_of_full hfresh hcut hr hfull

end HtmlMessageComposer

namespace HttpMessageDispatcher

open HtmlMessageComposer

variable {qt : Qt} {inp : Input} {sh : Shared}

-- The client asks for a link as it stands.
def linkRequest (link fields : Bytes) : Bytes :=
  ascii "GET " ++ link ++ ascii " " ++ ascii "HTTP/1.1" ++ (ascii "\r\n" ++ fields)

-- A name whose link is read to its end and leads back to it.
structure Linkable (path : QString) : Prop where
  unbroken : ∀ c ∈ path, c ≠ 32 → Client.inValue c
  unescaped : ¬ ascii "%20" <:+: path
  short : (linkTarget path).length + 13 < 2147483648

structure Offers (qt : Qt) (disk : Disk) (cwd path : QString) (b : Bytes) : Prop where
  pathExists : disk.pathExists (qt.absolutePath cwd path)
  isFile : disk.isFile (qt.absolutePath cwd path)
  holds : (disk.file (qt.absolutePath cwd path)).Holds b
  small : b.length ≤ fileChunk

def documentOf (qt : Qt) (disk : Disk) (cwd path : QString) (b : Bytes) : Document where
  mimeStr := disk.mimeTypeForFile (qt.absolutePath cwd path)
  body := b

def pageEnd : Bytes := ascii "</body></html>"

theorem lt_notMem_toHtmlEscaped (name : QString) : 60 ∉ toHtmlEscaped name := by
  intro h
  have hmarkup : 60 ∈ markup (toHtmlEscaped name) := List.mem_filter.mpr ⟨h, by decide⟩
  rw [markup_toHtmlEscaped] at hmarkup
  cases hmarkup

-- What stands between the value of a link and the next entry begins no link.
theorem linkless_entry (file : QFileInfo)
    : Client.Linkless ((linkTarget file.absoluteFilePath).dropWhile Client.inValue
        ++ 62 :: ((if file.isDir then toHtmlEscaped (ascii "<DIR> ") else [])
          ++ toHtmlEscaped file.fileName ++ ascii "</a>")) := by
  rw [Client.linkless_append_cons_iff (by decide)]
  constructor
  . apply Client.linkless_of_notMem (c := 32) (by decide)
    intro hspace
    apply space_notMem_linkTarget file.absoluteFilePath
    apply (List.dropWhile_suffix _).subset hspace
  . have hclose : ascii "</a>" = 60 :: ascii "/a>" := by rfl
    rw [hclose, ← List.cons_append, Client.linkless_append_cons_iff (by decide)]
    constructor
    . apply Client.linkless_of_notMem (c := 60) (by decide)
      rw [List.mem_cons, List.mem_append]
      rintro (h | h | h)
      . revert h
        decide
      . split at h
        . apply lt_notMem_toHtmlEscaped _ h
        . cases h
      . apply lt_notMem_toHtmlEscaped _ h
    . apply Client.linkless_of_notMem (c := 32) <;> decide

-- Whatever the names are, the client reads one link for every entry.
theorem links_of_entries (list : List QFileInfo) (hbefore : Client.Linkless before)
    : (Client.linkReader.readAll (before ++ (list.flatMap listEntry ++ pageEnd))).1
        =
      list.map (fun file => (linkTarget file.absoluteFilePath).takeWhile Client.inValue) := by
  induction list generalizing before with
  | nil =>
    have hlinkless : Client.Linkless (before ++ pageEnd) := by
      apply (Client.linkless_append_cons_iff (c := 60) (by decide)).mpr
      refine ⟨hbefore, ?_⟩
      apply Client.linkless_of_notMem (c := 32) <;> decide
    rw [List.flatMap_nil, List.nil_append,
      Client.linkReader.readAll_of_none (Client.readLink_of_linkless hlinkless)]
    rfl
  | cons file list ih =>
    have hbreak : Client.Linkless (before ++ ascii "<br />") := by
      apply (Client.linkless_append_cons_iff (c := 60) (by decide)).mpr
      refine ⟨hbefore, ?_⟩
      apply Client.linkless_of_notMem (c := 97) <;> decide
    have hentry : before ++ ((file :: list).flatMap listEntry ++ pageEnd)
        = (before ++ ascii "<br />") ++ (Client.anchor ++ (linkTarget file.absoluteFilePath
          ++ 62 :: ((if file.isDir then toHtmlEscaped (ascii "<DIR> ") else [])
            ++ toHtmlEscaped file.fileName ++ ascii "</a>"
            ++ (list.flatMap listEntry ++ pageEnd)))) := by
      have hanchor : ascii "<br /><a href=" = ascii "<br />" ++ Client.anchor := by rfl
      have hclose : ascii ">" = [62] := by rfl
      rw [List.flatMap_cons, listEntry_eq, hanchor, hclose]
      simp only [List.append_assoc, List.cons_append, List.nil_append]
    have hread := Client.readLink_anchor hbreak (show ¬ Client.inValue 62 by decide)
      (linkTarget file.absoluteFilePath)
      ((if file.isDir then toHtmlEscaped (ascii "<DIR> ") else []) ++ toHtmlEscaped file.fileName
        ++ ascii "</a>" ++ (list.flatMap listEntry ++ pageEnd))
    rw [hentry, Client.linkReader.readAll_of_some hread, List.map_cons, ← ih (linkless_entry file)]
    simp only [List.append_assoc, List.cons_append]

theorem links_of_page (list : List QFileInfo) (hdir : Client.Linkless dir)
    : (Client.linkReader.readAll (directoryPage list dir)).1
        =
      list.map (fun file => (linkTarget file.absoluteFilePath).takeWhile Client.inValue) := by
  have hhead : ascii "<html><head><title>Open Web Server</title></head><body><h1>"
      = ascii "<html><head><title>Open Web Server</title></head><body><h1" ++ [62] := by rfl
  have hbefore : Client.Linkless
      (ascii "<html><head><title>Open Web Server</title></head><body><h1" ++ 62 :: dir
        ++ ascii "</h1>") := by
    apply (Client.linkless_append_cons_iff (c := 60) (by decide)).mpr
    constructor
    . rw [Client.linkless_append_cons_iff (by decide)]
      refine ⟨?_, Client.linkless_cons (by decide) hdir⟩
      apply Client.linkless_of_notMem (c := 61) <;> decide
    . apply Client.linkless_of_notMem (c := 97) <;> decide
  rw [← links_of_entries list hbefore, directoryPage, hhead]
  simp only [pageEnd, List.append_assoc, List.cons_append, List.nil_append]

theorem takeWhile_linkTarget (hlinkable : Linkable path)
    : (linkTarget path).takeWhile Client.inValue = linkTarget path := by
  have hall : ∀ c ∈ linkTarget path, Client.inValue c := by
    intro c hc
    obtain hescaped | ⟨hpath, hne⟩ := mem_linkTarget hc
    . have hsafe : ∀ c ∈ ascii "%20", Client.inValue c := List.all_eq_true.mp (by decide)
      exact hsafe c hescaped
    . exact hlinkable.unbroken c hpath hne
  have htake : (linkTarget path ++ []).takeWhile Client.inValue
      = linkTarget path ++ [].takeWhile Client.inValue := List.takeWhile_append_of_pos hall
  rwa [List.takeWhile_nil, List.append_nil] at htake

theorem parse_linkRequest (hqt : qt.fromStdString (linkTarget path) = linkTarget path)
    (hlinkable : Linkable path) {p : HttpHeaderParser} (hdirty : p.isDirty)
    (hp : p.requestHeader = linkRequest (linkTarget path) fields)
    : p.parse qt = some { p with requestPath := path, isDirty := false } := by
  have hversion : ∀ c ∈ ascii "HTTP/1.1", c ∉ ascii " \r\n" := notMem_of_all (by decide)
  have hunbroken : ∀ c ∈ path, c ∉ ascii "\r\n" := by
    intro c hc hbreak
    have hends : ∀ c ∈ ascii "\r\n", (c != 32 && !Client.inValue c) = true :=
      List.all_eq_true.mp (by decide)
    have hend := hends c hbreak
    rw [Bool.and_eq_true, bne_iff_ne] at hend
    rw [hlinkable.unbroken c hc hend.1] at hend
    cases hend.2
  rw [HttpHeaderParser.parse_of_targetFits qt hdirty hp (linkTarget_unbroken hunbroken)
    hversion ((targetFits_iff _).mpr hlinkable.short), hqt,
    (decode_linkTarget_iff path).mpr hlinkable.unescaped]

-- A file is answered through `cache_`, whether it was there before or not.
theorem isCached_of_file {c : ClientSession} (hfresh : c.Fresh)
    (hparse : c.request.parse qt = some request)
    (hfile : disk.pathExists (qt.absolutePath sh.cwd request.requestPath)
      ∧ disk.isFile (qt.absolutePath sh.cwd request.requestPath))
    (hrequest : onClientRequest qt disk indeterminate sh c = some (sh', c'))
    : c'.isCached := by
  cases onClientRequest_cases hrequest with
  | pending hflag => simp [hfresh.ewouldblockFlag] at hflag
  | cached hflag hparsed hlookup =>
    obtain ⟨request', entry, -, -, -, rfl⟩ := parsed_cached hparsed hlookup
    rfl
  | file hflag hparsed hlookup hread => simp [store_isCached]
  | directory hflag hparsed hlookup =>
    obtain ⟨request', hrequest', hnot, -⟩ := parsed_directory hparsed hlookup
    obtain rfl : request = request' := by simpa [hparse] using hrequest'
    exact absurd hfile hnot

theorem iterate_of_file {c : ClientSession} (tag : τ) (rest : List (Queued τ)) (hfresh : c.Fresh)
    (hparse : c.request.parse qt = some request)
    (hfile : inp.disk.pathExists (qt.absolutePath sh.cwd request.requestPath)
      ∧ inp.disk.isFile (qt.absolutePath sh.cwd request.requestPath))
    (hbuilt : builtResponse qt inp.disk inp.indeterminate sh c = some data)
    (hsend : ∀ k, (inp.results k).IsAccepted)
    : ∃ r, iterate qt inp sh (⟨tag, c⟩ :: rest) = some r ∧ r.worked = tag ∧ r.popped
        ∧ r.loop.sent = data := by
  obtain ⟨⟨sh', c'⟩, hrequest, hdata⟩ := Option.bind_eq_some_iff.mp hbuilt
  have hcached := isCached_of_file hfresh hparse hfile hrequest
  have hrotate : rotate (⟨tag, c⟩ :: rest) = ⟨tag, c⟩ :: rest := by
    simp [rotate, hfresh.ewouldblockFlag]
  refine ⟨_, iterate_of_cached hrotate hrequest hcached hdata, rfl, rfl, ?_⟩
  rw [sendLoop.sent_eq_data_iff]
  apply Fits.of_all_accepted hsend _

theorem link_delivers (qt : Qt) (list : List QFileInfo) (dir : QString) (k : Nat) (file : QFileInfo)
    (link : Bytes) (c : HtmlMessageComposer) (socket : Int) (arrivals : List Arrival) (fields : Bytes)
    (inp : Input) (sh : Shared) (tag : τ) (rest : List (Queued τ)) (b : Bytes)
    (hdir : ¬ ascii "<a href=" <:+: dir) (hentry : list[k]? = some file)
    (hlink : (Client.linkReader.readAll (directoryPage list dir)).1[k]? = some link)
    (hqt : qt.fromStdString (linkTarget file.absoluteFilePath) = linkTarget file.absoluteFilePath)
    (hfresh : c.messages socket = none)
    (hcut : (arrivals.map (·.received)).flatten = linkRequest link fields)
    (hr : TerminatedOnce (linkRequest link fields))
    (hfull : ∀ a ∈ arrivals.tail, a.dataSize = recvBufferSize)
    (hlinkable : Linkable file.absoluteFilePath)
    (hoffers : Offers qt inp.disk sh.cwd file.absoluteFilePath b)
    (hmime : 13 ∉ inp.disk.mimeTypeForFile (qt.absolutePath sh.cwd file.absoluteFilePath))
    (hcache : ∀ v, sh.cache file.absoluteFilePath = some v →
      v = (documentOf qt inp.disk sh.cwd file.absoluteFilePath b).response)
    (hsend : ∀ k, (inp.results k).IsAccepted)
    : (Client.linkReader.readAll (directoryPage list dir)).1.length = list.length
        ∧ ∃ msg r, (c.deliver socket arrivals).2 = [msg]
          ∧ iterate qt inp sh (⟨tag, msg⟩ :: rest) = some r ∧ r.worked = tag ∧ r.popped
          ∧ Client.responseReader.readAll r.loop.sent
            = ([documentOf qt inp.disk sh.cwd file.absoluteFilePath b], []) := by
  have hlinks := links_of_page list hdir
  refine ⟨by rw [hlinks, List.length_map], ?_⟩
  -- the link that the client has read is the whole link target of the entry
  obtain rfl : linkTarget file.absoluteFilePath = link := by
    rw [hlinks, List.getElem?_map, hentry, Option.map_some, takeWhile_linkTarget hlinkable] at hlink
    exact Option.some.inj hlink
  -- the composer hands over the request as it was sent
  obtain ⟨-, ⟨msg, hmsg, hheader⟩, -⟩ := reassembled_of_full hfresh hcut hr hfull
  have hunserved : Unserved msg := by
    apply deliver_unserved arrivals _ msg
    . rw [hmsg]
      apply List.mem_singleton_self msg
    . simp [hfresh]
  have hparse := parse_linkRequest hqt hlinkable hunserved.isDirty hheader
  -- the response is that of the file, from `cache_` or not
  have hbuilt := builtResponse_of_file (r := ⟨inp.disk, inp.indeterminate, msg⟩) sh hunserved.fresh
    hparse hoffers.pathExists hoffers.isFile hoffers.holds
  have hresponse : builtResponse qt inp.disk inp.indeterminate sh msg
      = some (documentOf qt inp.disk sh.cwd file.absoluteFilePath b).response := by
    rw [hbuilt, fileResponse_message _ hoffers.small]
    cases hentry : sh.cache file.absoluteFilePath with
    | none => rfl
    | some v => rw [Option.getD_some, hcache v hentry]
  obtain ⟨r, hiterate, hworked, hpopped, hsent⟩ := iterate_of_file tag rest hunserved.fresh hparse
    ⟨hoffers.pathExists, hoffers.isFile⟩ hresponse hsend
  refine ⟨msg, r, hmsg, hiterate, hworked, hpopped, ?_⟩
  have hread := Client.readResponse_response
    (documentOf qt inp.disk sh.cwd file.absoluteFilePath b) hmime []
  rw [List.append_nil] at hread
  rw [hsent, Client.responseReader.readAll_of_some hread, Client.responseReader.readAll_nil]

def diskOfSpaceInName : Disk :=
  .ofTree [(fileSpaceInName.absoluteFilePath, ascii "hi")] []

def inputOfSpaceInName : Input where
  disk := diskOfSpaceInName
  indeterminate := false
  results _ := .accepted ⟨1, Nat.one_pos⟩

theorem offers_fileSpaceInName
    : Offers Qt.unix inputOfSpaceInName.disk (ascii "/") fileSpaceInName.absoluteFilePath
        (ascii "hi") := by
  constructor
  . rfl
  . rfl
  . apply QFile.ofContent_holds (ascii "hi")
  . decide

theorem linkable_fileSpaceInName : Linkable fileSpaceInName.absoluteFilePath := by
  constructor
  . intro c hc hne
    have hvalue : ∀ c ∈ fileSpaceInName.absoluteFilePath, (c == 32 || Client.inValue c) = true :=
      List.all_eq_true.mp (by decide)
    have hc := hvalue c hc
    rw [Bool.or_eq_true, beq_iff_eq] at hc
    exact hc.resolve_left hne
  . decide +kernel
  . rw [show (linkTarget fileSpaceInName.absoluteFilePath).length = 10 by decide]
    decide

def listingOfTwo : List QFileInfo :=
  [⟨ascii "/www/<a href=", ascii "<a href=", true⟩, fileSpaceInName]

def linkFollowed : Arrival :=
  .ofBytes (linkRequest (ascii "/www/a%20b") (ascii "\r\n")) (by decide) (by decide)

theorem link_delivers_listingOfTwo
    : (Client.linkReader.readAll (directoryPage listingOfTwo (ascii "/www"))).1
          = [ascii "/www/<a%20href=", ascii "/www/a%20b"]
        ∧ ∃ msg r, (deliver {} 5 [linkFollowed]).2 = [msg]
          ∧ iterate Qt.unix inputOfSpaceInName { cwd := ascii "/" } [⟨0, msg⟩] = some r
          ∧ r.worked = 0 ∧ r.popped
          ∧ Client.responseReader.readAll r.loop.sent = ([⟨ascii "text/plain", ascii "hi"⟩], []) := by
  have hdir : ¬ ascii "<a href=" <:+: ascii "/www" := by decide +kernel
  have hlinks : (Client.linkReader.readAll (directoryPage listingOfTwo (ascii "/www"))).1
      = [ascii "/www/<a%20href=", ascii "/www/a%20b"] := by
    rw [links_of_page listingOfTwo hdir]
    decide
  have hcut : ([linkFollowed].map (·.received)).flatten
      = linkRequest (ascii "/www/a%20b") (ascii "\r\n") := by
    simp [linkFollowed, Arrival.ofBytes_received]
  have hr : TerminatedOnce (linkRequest (ascii "/www/a%20b") (ascii "\r\n")) :=
    TerminatedOnce.of_take (by decide) (by decide)
  refine ⟨hlinks, ?_⟩
  exact (link_delivers Qt.unix listingOfTwo (ascii "/www") 1 fileSpaceInName (ascii "/www/a%20b") {} 5
    [linkFollowed] (ascii "\r\n") inputOfSpaceInName { cwd := ascii "/" } 0 [] (ascii "hi") hdir rfl
    (by rw [hlinks]; rfl) rfl rfl hcut hr (by simp) linkable_fileSpaceInName offers_fileSpaceInName
    (show 13 ∉ ascii "text/plain" by decide) (by simp) (fun _ => ⟨⟨1, Nat.one_pos⟩, rfl⟩)).2

end HttpMessageDispatcher
