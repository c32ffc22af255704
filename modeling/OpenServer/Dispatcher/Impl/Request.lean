import OpenServer.Http.ClientSession

/-!
This module contains `HTTP_Message_Dispatcher::onClientRequest`, cut where another thread can see or
change what it works on: the lookup in `cache_`, the read of the file, the three calls that use the
working directory, and the store into `cache_`.
-/

-- `cache_` and the working directory belong to the process, not to one dispatcher.
structure Shared where
  cache : QString → Option Bytes := fun _ => none
  cwd : QString

namespace HttpMessageDispatcher

def fileChunk : Int := 1048576

inductive Lookup where
  | cached
  | file
  | directory
  deriving DecidableEq, Repr

structure Response where
  mimeStr : Bytes
  responseBody : Bytes
  pendingBytes : Int := 0
  includeHeader : Bool := true

variable (qt : Qt) (disk : Disk)

def parseRequest (c : ClientSession) : Option ClientSession := do
  let request ← c.request.parse qt
  some { c with request }

def lookup (sh : Shared) (c : ClientSession) : Lookup × ClientSession :=
  let path := c.request.requestPath
  let checkFile := qt.absolutePath sh.cwd path
  if disk.pathExists checkFile && disk.isFile checkFile then
    match sh.cache path with
    | some _ => (.cached, { c with cacheIterator := some path, isCached := true })
    | none => (.file, { c with cacheIterator := none })
  else
    (.directory, c)

-- `response_body_vect.resize(n)` and a read into it: a negative size throws, and more bytes than
-- the buffer holds would be written behind it.
def fill (n : Int) (bytes : Bytes) : Option Bytes :=
  if bytes.length ≤ n then
    some (bytes ++ List.replicate (n.toNat - bytes.length) 0)
  else
    none

def readFile (cwd : QString) (c : ClientSession) : Option (ClientSession × Response) :=
  let checkFile := qt.absolutePath cwd c.request.requestPath
  let mimeStr := disk.mimeTypeForFile checkFile
  let file := disk.file checkFile
  let includeHeader := !c.sendMessageHasMoreBytes
  let pos := c.sendMessageIndex - c.sendMessageHeaderSize
  if file.size 0 - c.sendMessageIndex + c.sendMessageHeaderSize > fileChunk then do
    let responseBody ← fill fileChunk (file.readAt pos fileChunk)
    let pendingBytes := file.size 1 - fileChunk
    some ({ c with sendMessageHasMoreBytes := true },
      { mimeStr, responseBody, pendingBytes, includeHeader })
  else if file.size 1 - c.sendMessageIndex + c.sendMessageHeaderSize ≤ fileChunk then do
    let vres := file.size 2 - c.sendMessageIndex + c.sendMessageHeaderSize
    let responseBody ← fill vres
      (file.readAt pos (file.size 3 - c.sendMessageIndex + c.sendMessageHeaderSize))
    some ({ c with sendMessageHasMoreBytes := false }, { mimeStr, responseBody, includeHeader })
  else
    some (c, { mimeStr, responseBody := [], includeHeader })

def changeDir (cwd : QString) (c : ClientSession) : Option QString :=
  let currentDir := qt.fromNativeSeparators c.request.requestPath
  if c.request.requestPath ≠ ascii "/" then
    disk.setCurrent (qt.absolutePath cwd currentDir)
  else
    disk.setCurrent (qt.absolutePath cwd (ascii "/"))

-- The quotes of the source literals close and reopen them: none reaches the page.
def listEntry (file : QFileInfo) : Bytes :=
  let urlEncoded := Text.replaceAll (ascii " ") (ascii "%20") file.absoluteFilePath
  if file.isDir then
    ascii "<br /><a href=" ++ urlEncoded ++ ascii ">" ++ toHtmlEscaped (ascii "<DIR> ")
      ++ toHtmlEscaped file.fileName ++ ascii "</a>"
  else
    ascii "<br /><a href=" ++ urlEncoded ++ ascii ">" ++ toHtmlEscaped file.fileName ++ ascii "</a>"

def directoryPage (list : List QFileInfo) (currentPath : QString) : Bytes :=
  ascii "<html><head><title>Open Web Server</title></head><body><h1>" ++ currentPath
    ++ ascii "</h1>" ++ list.flatMap listEntry ++ ascii "</body></html>"

def directoryResponse (list : List QFileInfo) (currentPath : QString) : Response where
  mimeStr := ascii "text/html"
  responseBody := directoryPage list currentPath

def responseHeader (mimeStr : Bytes) (contentLength : Int) : Bytes :=
  ascii "HTTP/1.1 200 OK\r\n" ++ ascii "Content-Type: " ++ mimeStr ++ ascii "\r\n"
    ++ ascii "Connection: close\r\n" ++ ascii "Content-Length: "
    ++ toDecimal contentLength.toNat ++ ascii "\r\n" ++ ascii "\r\n"

def compose (c : ClientSession) (r : Response) : ClientSession :=
  let header := responseHeader r.mimeStr (r.responseBody.length + r.pendingBytes)
  if r.includeHeader then
    { c with sendMessage := header ++ r.responseBody, sendMessageHeaderSize := header.length }
  else
    { c with sendMessage := r.responseBody }

def store (shouldCacheResponse : Bool) (sh : Shared) (c : ClientSession) : Shared × ClientSession :=
  if shouldCacheResponse then
    let path := c.request.requestPath
    ({ sh with cache := fun key => if key = path then some c.sendMessage else sh.cache key },
      { c with sendMessage := [], cacheIterator := some path, isCached := true })
  else
    (sh, c)

-- `indeterminate` is what the uninitialised `should_cache_response` holds: the file branch assigns
-- it before the store, the directory branch does not.
def onClientRequest (indeterminate : Bool) (sh : Shared) (c : ClientSession)
    : Option (Shared × ClientSession) :=
  if c.ewouldblockFlag then
    some (sh, { c with ewouldblockFlag := false })
  else do
    let c ← parseRequest qt c
    match lookup qt disk sh c with
    | (.cached, c) => some (sh, c)
    | (.file, c) =>
      let (c, response) ← readFile qt disk sh.cwd c
      some (store true sh (compose c response))
    | (.directory, c) =>
      let cwd := (changeDir qt disk sh.cwd c).getD sh.cwd
      let response := directoryResponse (disk.entryInfoList cwd) cwd
      some (store indeterminate { sh with cwd } (compose c response))

end HttpMessageDispatcher
