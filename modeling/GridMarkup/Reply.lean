import GridMarkup.Notice

/-!
# Replies

A stage answers a token with the tokens that take its place and with notices for the log.
-/

namespace GridMarkup

structure Reply where
  tokens : List Token := []
  notices : List Notice := []
  deriving DecidableEq, Repr

end GridMarkup
