import OpenServer.Text.Search
import OpenServer.Http.Qt

/-!
This module contains `HTTP_Header_parser`. `parse` is undefined where the source builds an invalid
iterator range.
-/

structure HttpHeaderParser where
  requestHeader : Bytes := []
  requestPath : QString := []
  isDirty : Bool := true
  deriving DecidableEq, Repr

namespace HttpHeaderParser

def parse (qt : Qt) (p : HttpHeaderParser) : Option HttpHeaderParser :=
  if p.isDirty then do
    let request := p.requestHeader
    let rv := intOfSize ((Text.findFirstOf (ascii "\r\n") request).getD npos)
    let getLine ← Text.slice request 4 (rv - 1)
    let lastSpace := intOfSize ((Text.findLastOf (ascii " ") getLine).getD npos)
    let url ← Text.slice getLine 0 lastSpace
    some { p with
      requestPath := Text.replaceAll (ascii "%20") (ascii " ") (qt.fromStdString url)
      isDirty := false }
  else
    some p

end HttpHeaderParser
